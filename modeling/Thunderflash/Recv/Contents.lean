/-
What the created files hold: nothing until the writer has them, then exactly the bytes their
messages carried so far.
-/
import Thunderflash.Recv.Owned

namespace Thunderflash.Recv

open Codec Posix Fs Lts

variable {cfg : Cfg} {c : Choice} {sh sh' : Shared} {fl fl' : Flow} {s s' : State} {fs0 : Fs} {t u : InFlight} {p : Bytes}

/-! ## What a file should hold -/

/-- The writer is at work on `t` and has written `p`. -/
def WriterPc.Wrote (x : Tally) (t : InFlight) (p : Bytes) : WriterPc → Prop
  | .recv (some o) => o.t = t ∧ x.current = some (t, p)
  | .replace _ u => u = t ∧ p = []
  | .write o bytes => o.t = t ∧ x.current = some (t, p ++ bytes)
  | .chmod u | .stamp u | .flush u | .rename u _ => u = t ∧ ∃ fs, x.files = fs ++ [(t, p)]
  | _ => False

/-- The files no writer has taken yet. -/
def Flow.front (fl : Flow) : List InFlight :=
  fl.net.tokens ++ (inFlights fl.hq ++ (fl.hash.tokens ++ inFlights fl.wq))

/-- The files committed, with what they should hold. -/
def Log.committed (l : Log) : List (InFlight × Bytes) := (tally l.taken).files.take l.kept.length

/-- `t` should hold `p`: it waits for the writer, the writer has written so much, or it is committed. -/
inductive Flow.Filled (fl : Flow) (t : InFlight) (p : Bytes) : Prop
  | waiting : t ∈ fl.front → p = [] → Filled fl t p
  | writing : fl.writer.Wrote (tally fl.log.taken) t p → Filled fl t p
  | committed : (t, p) ∈ fl.log.committed → Filled fl t p

theorem tokens_eq (fl : Flow) : fl.tokens = fl.front ++ fl.writer.tokens := by simp [Flow.tokens, Flow.front]

theorem WriterPc.Wrote.token {w : WriterPc} {x : Tally} (h : w.Wrote x t p) : t ∈ w.tokens := by
  unfold WriterPc.Wrote at h
  split at h
  case h_8 => exact h.elim
  all_goals
    obtain ⟨rfl, -⟩ := h
    simp [WriterPc.tokens]

theorem committed_keys (h : WriterInv fl) : fl.log.committed.map Prod.fst = fl.log.kept := by
  have := h.isPrefix
  unfold Log.committed
  rw [List.map_take]
  exact (List.prefix_iff_eq_take.1 this).symm

theorem Flow.Filled.born (h : fl.Filled t p) (hi : FlowInv cfg fl) : t ∈ fl.log.born := by
  cases h with
  | waiting ht => exact hi.token_born (by rw [tokens_eq]; exact List.mem_append_left _ ht)
  | writing hw => exact hi.token_born (by rw [tokens_eq]; exact List.mem_append_right _ hw.token)
  | committed hk =>
    refine hi.kept_born ?_
    rw [← committed_keys hi.writer]
    exact List.mem_map_of_mem (f := Prod.fst) hk

/-! ## Steps -/

/-- While the writer rests, files only come to the front. -/
theorem Hands.front {born kept undone : List InFlight} (h : Hands fl fl' born kept undone)
    (hw : fl'.writer.tokens = fl.writer.tokens) (ht : t ∈ fl'.front) : t ∈ fl.front ∨ t ∈ born := by
  have hp := h.tokens
  rw [tokens_eq, tokens_eq, hw] at hp
  have hc : (fl'.front ++ (kept ++ undone)).Perm (fl.front ++ born) := by
    refine List.perm_iff_count.2 fun a => ?_
    have := hp.count_eq a
    simp only [List.count_append] at this ⊢
    omega
  have := hc.subset (List.mem_append_left _ ht)
  simpa using this

/-- The messages of a completed file, once it is kept. -/
theorem Ripe.committed {x : Tally} {kept : List InFlight} (h : Ripe x kept u) {q : InFlight × Bytes}
    (hq : q ∈ x.files.take (kept ++ [u]).length) : q ∈ x.files.take kept.length ∨ (∃ fs, x.files = fs ++ [q]) ∧ q.1 = u := by
  obtain ⟨-, fs, p, hf, rfl⟩ := h
  rw [hf] at hq ⊢
  have hq := List.mem_of_mem_take hq
  rw [List.mem_append, List.mem_singleton] at hq
  rcases hq with hq | rfl
  · exact .inl (by simpa using hq)
  · exact .inr ⟨⟨fs, rfl⟩, rfl⟩

theorem settle_filled (hr : Ripe (tally fl.log.taken) fl.log.kept u) (h : (fl.settle u).Filled t p) :
    fl.Filled t p ∨ (t = u ∧ ∃ fs, (tally fl.log.taken).files = fs ++ [(t, p)]) := by
  rcases settle_cases u fl with ⟨final, -, he⟩ | ⟨-, he⟩ <;> rw [he] at h
  · cases h with
    | waiting h hp => exact .inl (.waiting h hp)
    | writing h => exact .inr ⟨h.1.symm, h.2⟩
    | committed h => exact .inl (.committed h)
  · cases h with
    | waiting h hp => exact .inl (.waiting h hp)
    | writing h => exact h.elim
    | committed h =>
      rcases hr.committed h with h | ⟨h1, h2⟩
      · exact .inl (.committed h)
      · exact .inr ⟨h2, h1⟩

theorem handle_filled {current : Option Cursor} {m : Msg} {q : List Msg} (hw : fl.writer = .recv current)
    (hq : fl.wq = m :: q) (hi : WriterInv fl)
    (h : (Flow.handle current m sh { fl with wq := q, log := { fl.log with taken := fl.log.taken ++ [m] } }).2.Filled t p) :
    fl.Filled t p := by
  have hfront : t ∈ fl.net.tokens ++ (inFlights fl.hq ++ (fl.hash.tokens ++ inFlights q)) → t ∈ fl.front := by
    intro ht
    simp only [Flow.front, hq, inFlights_cons, List.mem_append] at ht ⊢
    tauto
  have hk : fl.log.kept = (tally fl.log.taken).tokens := by
    unfold WriterInv at hi
    rw [hw] at hi
    cases current with
    | none => exact hi.1
    | some o => exact hi.1
  have hcom : ∀ {x : Tally}, tally fl.log.taken = x → x.files.take fl.log.kept.length = x.files := by
    intro x hx
    rw [hk, ← hx, Tally.tokens, List.length_map, List.take_length]
  -- unless a file is completed the tally has the same files
  have hsame : (tally (fl.log.taken ++ [m])).files = (tally fl.log.taken).files →
      (t, p) ∈ ({ fl.log with taken := fl.log.taken ++ [m] } : Log).committed → fl.Filled t p := by
    intro he hc
    unfold Log.committed at hc
    rw [he] at hc
    exact .committed hc
  unfold Flow.handle at h
  split at h
  case h_1 b =>
    cases h with
    | waiting h hp => exact .waiting (hfront h) hp
    | writing h =>
      obtain ⟨rfl, h⟩ := h
      rw [tally_snoc] at h
      refine .waiting ?_ (by simpa [Tally.next] using h.symm)
      simp [Flow.front, hq, Msg.inFlight]
    | committed h => exact hsame (by rw [tally_snoc]; rfl) h
  case h_2 b old =>
    cases h with
    | waiting h hp => exact .waiting (hfront h) hp
    | writing h =>
      obtain ⟨rfl, h⟩ := h
      refine .waiting ?_ h
      simp [Flow.front, hq, Msg.inFlight]
    | committed h => exact hsame (by rw [tally_snoc]; rfl) h
  case h_3 bytes =>
    cases h with
    | waiting h hp => exact .waiting (hfront h) hp
    | writing h => dsimp only at h; rw [hw] at h; exact h.elim
    | committed h => exact hsame (by rw [tally_snoc]; rfl) h
  case h_4 bytes o =>
    cases h with
    | waiting h hp => exact .waiting (hfront h) hp
    | writing h =>
      obtain ⟨rfl, h⟩ := h
      rw [tally_snoc] at h
      refine .writing ?_
      rw [hw]
      refine ⟨rfl, ?_⟩
      cases hc : (tally fl.log.taken).current with
      | none => simp [Tally.next, hc] at h
      | some f => simp [Tally.next, hc] at h; simp [← h]
    | committed h => exact hsame (by rw [tally_snoc]; rfl) h
  case h_5 =>
    cases h with
    | waiting h hp => exact .waiting (hfront h) hp
    | writing h => dsimp only at h; rw [hw] at h; exact h.elim
    | committed h =>
      refine hsame ?_ h
      unfold WriterInv at hi
      rw [hw] at hi
      rw [tally_snoc, Tally.next, hi.2]
  case h_6 o =>
    unfold WriterInv at hi
    rw [hw] at hi
    obtain ⟨-, p0, hcur, -⟩ := hi
    have htal : (tally (fl.log.taken ++ [.endFile])).files = (tally fl.log.taken).files ++ [(o.t, p0)] := by
      rw [tally_snoc, Tally.next, hcur]
    cases h with
    | waiting h hp => exact .waiting (hfront h) hp
    | writing h =>
      have h' : o.t = t ∧ ∃ fs, (tally (fl.log.taken ++ [.endFile])).files = fs ++ [(t, p)] := by
        dsimp only at h; split at h <;> exact h
      obtain ⟨rfl, fs, hfs⟩ := h'
      rw [htal] at hfs
      obtain ⟨-, he⟩ := List.append_inj' hfs rfl
      cases he
      exact .writing (by rw [hw]; exact ⟨rfl, hcur⟩)
    | committed h =>
      unfold Log.committed at h
      dsimp only at h
      rw [htal, List.take_append_of_le_length (by rw [hk]; simp [Tally.tokens])] at h
      exact .committed h
  case h_7 =>
    cases h with
    | waiting h hp => exact .waiting (hfront h) hp
    | writing h =>
      refine .writing ?_
      dsimp only at h
      rw [hw, tally_snoc] at h
      rw [hw]
      exact h
    | committed h => exact hsame (by rw [tally_snoc]; rfl) h

/-- A write of the writer's next bytes to `t`, which should hold `q` before. -/
structure Appends (sh : Shared) (fl : Flow) (sh' : Shared) (t : InFlight) (p : Bytes) (o : Cursor) (bytes q b : Bytes) : Prop where
  token : o.t = t
  filled : fl.Filled t q
  off : q.length = o.off
  eq : p = q ++ bytes
  before : sh.fs.leaf t.file = some (.file b)
  after : sh'.fs.leaf t.file = some (.file (overwrite b o.off bytes))

/-- While the writer rests, what a file should hold does not change. -/
theorem Effect.filled_rest (he : Effect cfg c sh fl sh' fl') (hw : fl'.writer = fl.writer)
    (ht : fl'.log.taken = fl.log.taken) (hk : fl'.log.kept = fl.log.kept) (hf : fl'.Filled t p) :
    fl.Filled t p ∨ (Opens cfg c sh fl sh' t ∧ p = []) := by
  cases hf with
  | waiting hfr hp =>
    obtain ⟨born, kept, undone, hh⟩ := he.hands
    rcases hh.front (by rw [hw]) hfr with hfr | hfr
    · exact .inl (.waiting hfr hp)
    · rcases he.born with ⟨hb, -⟩ | ⟨u, ho, hb, -⟩
      · rw [hh.born] at hb
        rw [List.append_right_eq_self.1 hb] at hfr
        cases hfr
      · rw [hh.born] at hb
        rw [List.append_cancel_left hb, List.mem_singleton] at hfr
        exact .inr ⟨by rw [hfr]; exact ho, hp⟩
  | writing h => rw [hw, ht] at h; exact .inl (.writing h)
  | committed h =>
    refine .inl (.committed ?_)
    unfold Log.committed at h ⊢
    rwa [ht, hk] at h

theorem FlowStep.filled (h : FlowStep cfg c sh fl sh' fl') (hi : FlowInv cfg fl) (hf : fl'.Filled t p) :
    fl.Filled t p ∨ (Opens cfg c sh fl sh' t ∧ p = []) ∨ ∃ o bytes q b, Appends sh fl sh' t p o bytes q b := by
  have he := h.effect
  cases h with
  | net h =>
    obtain ⟨hw, ht, hk⟩ := netStep_writer h
    exact (he.filled_rest hw ht hk hf).imp_right .inl
  | hash _ h =>
    obtain ⟨_, _, _, _, _, _, rfl⟩ := hashStep_only h
    exact (he.filled_rest rfl rfl rfl hf).imp_right .inl
  | writer hs =>
    have hwi := hi.writer
    -- every step of the writer but a write leaves what it has at that
    have hkeep : ∀ {wq : List Msg} {w : WriterPc} {pool : Nat} {undone : List InFlight},
        fl' = { fl with wq, writer := w, pool, log := { fl.log with undone } } →
        (∀ x ∈ inFlights wq, x ∈ inFlights fl.wq) → (w.Wrote (tally fl.log.taken) t p → fl.Filled t p) → fl.Filled t p := by
      intro wq w pool undone hfl hwq hwr
      rw [hfl] at hf
      cases hf with
      | waiting h hp =>
        refine .waiting ?_ hp
        simp only [Flow.front, List.mem_append] at h ⊢
        rcases h with h | h | h | h
        exacts [.inl h, .inr (.inl h), .inr (.inr (.inl h)), .inr (.inr (.inr (hwq _ h)))]
      | writing h => exact hwr h
      | committed h => exact .committed h
    have hsettle : ∀ {u}, fl.writer = .stamp u ∨ fl.writer = .flush u → fl' = fl.settle u → fl.Filled t p := by
      intro u hw hfl
      have hr : Ripe (tally fl.log.taken) fl.log.kept u := by
        unfold WriterInv at hwi
        rcases hw with hw | hw <;> rw [hw] at hwi <;> exact hwi
      rw [hfl] at hf
      rcases settle_filled hr hf with hf | ⟨rfl, hfs⟩
      · exact hf
      · exact .writing (by rcases hw with hw | hw <;> rw [hw] <;> exact ⟨rfl, hfs⟩)
    unfold Flow.writerStep at hs
    unfold WriterInv at hwi
    split at hs
    case h_1 current hw =>
      split at hs
      · rename_i _ m q hq
        obtain rfl := congrArg Prod.snd (Option.some.inj hs)
        exact .inl (handle_filled hw hq hi.writer hf)
      all_goals
        split at hs <;> cases hs
        exact .inl (hkeep rfl (fun _ h => h) fun h => h.elim)
    case h_2 old u hw =>
      obtain ⟨undone, hfl⟩ := undo_eq (Option.some.inj hs)
      refine .inl (hkeep hfl (fun _ h => h) fun h => .writing ?_)
      rw [hw] at hwi ⊢
      obtain ⟨rfl, h⟩ := h
      rw [hwi.2] at h
      cases h
      exact ⟨rfl, rfl⟩
    case h_3 o bytes hw =>
      split at hs
      · rename_i hb
        cases hs
        refine .inl (hkeep rfl (fun _ h => h) fun h => .writing ?_)
        rw [hw, hb]
        exact ⟨h.1, by simpa using h.2⟩
      · split at hs
        · split at hs
          · rename_i sh1 r hcall
            cases hs
            cases hf with
            | waiting h hp => exact .inl (.waiting h hp)
            | committed h => exact .inl (.committed h)
            | writing h =>
              rw [hw] at hwi
              obtain ⟨rfl, h⟩ := h
              obtain ⟨-, q, hc, hl⟩ := hwi
              have hd := (call_ok (by rw [hcall])).2
              rw [hcall] at hd
              obtain ⟨b, hb, -, hfs⟩ := exec_write hd.exec
              refine .inr (.inr ⟨o, bytes.take c.count, q, b, rfl, .writing (by rw [hw]; exact ⟨rfl, hc⟩), hl, ?_, hb,
                by rw [hfs, leaf_setFile hb, if_pos rfl]⟩)
              dsimp only at h
              rw [hc] at h
              have heq : p ++ bytes.drop c.count = q ++ bytes.take c.count ++ bytes.drop c.count := by
                rw [List.append_assoc, List.take_append_drop]
                exact (Prod.mk.inj (Option.some.inj h)).2.symm
              exact List.append_cancel_right heq
          · cases hs
            exact .inl (hkeep rfl (fun _ h => h) fun h => h.elim)
        · cases hs
    case h_4 u hw =>
      cases hs
      exact .inl (hkeep rfl (fun _ h => h) fun h => .writing (by rw [hw]; exact h))
    case h_5 u hw =>
      obtain hfl := congrArg Prod.snd (Option.some.inj hs)
      dsimp only at hfl
      split at hfl
      · exact .inl (hkeep hfl.symm (fun _ h => h) fun h => .writing (by rw [hw]; exact h))
      · exact .inl (hsettle (.inl hw) hfl.symm)
    case h_6 u hw =>
      split at hs <;> cases hs
      · exact .inl (hsettle (.inr hw) rfl)
      · exact .inl (hkeep rfl (fun _ h => h) fun h => h.elim)
    case h_7 u final hw =>
      rw [hw] at hwi
      split at hs <;> cases hs
      · left
        cases hf with
        | waiting h hp => exact .waiting h hp
        | writing h => dsimp only at h; split at h <;> exact h.elim
        | committed h =>
          rcases hwi.2.committed h with h | ⟨h1, h2⟩
          · exact .committed h
          · exact .writing (by rw [hw]; exact ⟨h2.symm, h1⟩)
      · exact .inl (hkeep rfl (fun _ h => h) fun h => h.elim)
    case h_8 u hw =>
      split at hs <;> cases hs
      · exact .inl (hkeep rfl (fun _ h => h) fun h => h.elim)
      · exact .inl (hkeep rfl (fun _ h => h) fun h => h.elim)
    case h_9 u e hw =>
      obtain ⟨undone, hfl⟩ := undo_eq (Option.some.inj hs)
      exact .inl (hkeep hfl (fun _ h => by cases h) fun h => h.elim)
    case h_10 u e hw =>
      cases hs
      exact .inl (hkeep rfl (fun _ h => by cases h) fun h => h.elim)
    case h_11 u hw =>
      obtain ⟨undone, hfl⟩ := undo_eq (Option.some.inj hs)
      exact .inl (hkeep hfl (fun _ h => h) fun h => h.elim)
    case h_12 m l r hw =>
      obtain ⟨undone, hfl⟩ := dropMsg_eq (Option.some.inj hs)
      exact .inl (hkeep hfl (fun _ h => h) fun h => h.elim)
    case h_13 => cases hs

/-! ## What it does hold -/

/-- No other file created is the same inode as one that `P` picks. -/
structure Sole (P : InFlight → Prop) (s : State) : Prop where
  apart : ∀ {i k t u}, t ∈ (s.flow i).log.born → u ∈ (s.flow k).log.born → P t → t.file = u.file → i = k ∧ t = u
  once : ∀ {i t}, P t → (s.flow i).log.born.count t ≤ 1

theorem Sole.mono {P : InFlight → Prop} (h : Sole P s') (hg : ∀ i, (s.flow i).log.Grows (s'.flow i).log) : Sole P s :=
  ⟨fun ht hu hp he => h.apart ((hg _).born.subset ht) ((hg _).born.subset hu) hp he,
    fun hp => ((hg _).born.sublist.count_le _).trans (h.once hp)⟩

/-- Every file that `P` picks holds what it should. -/
def Contents (P : InFlight → Prop) (s : State) : Prop :=
  ∀ {i t p}, P t → (s.flow i).Filled t p → s.sh.fs.leaf t.file = some (.file p)

variable {P : InFlight → Prop} {i : Nat}

/-- A file the writer is writing is nowhere else. -/
theorem Flow.Filled.writing_of (h : fl.Filled t p) (hi : FlowInv cfg fl) (hone : fl.log.born.count t ≤ 1)
    (hw : t ∈ fl.writer.tokens) : fl.writer.Wrote (tally fl.log.taken) t p := by
  have hcount := hi.files.count_eq t
  rw [tokens_eq] at hcount
  simp only [List.count_append] at hcount
  have hw' := List.count_pos_iff.2 hw
  cases h with
  | waiting h => have := List.count_pos_iff.2 h; omega
  | writing h => exact h
  | committed h =>
    have hk : t ∈ fl.log.kept := by
      rw [← committed_keys hi.writer]
      exact List.mem_map_of_mem (f := Prod.fst) h
    have := List.count_pos_iff.2 hk
    omega

/-- While the writer writes, nobody takes a message off its channel. -/
theorem FlowStep.taken_of_write {o : Cursor} {bytes : Bytes} (h : FlowStep cfg c sh fl sh' fl')
    (hw : fl.writer = .write o bytes) : fl'.log.taken = fl.log.taken := by
  cases h with
  | net h => exact (netStep_writer h).2.1
  | hash _ h => obtain ⟨_, _, _, _, _, _, rfl⟩ := hashStep_only h; rfl
  | writer h =>
    simp only [Flow.writerStep, hw] at h
    split at h
    · cases h; rfl
    · split at h
      · split at h <;> cases h <;> rfl
      · cases h

theorem Contents.flowStep (h : Contents P s) (hf : ∀ i, FlowInv cfg (s.flow i)) (hS : Sole P (s.put i (sh', fl')))
    (hs : FlowStep cfg c s.sh (s.flow i) sh' fl') : Contents P (s.put i (sh', fl')) := by
  have he := hs.effect
  have hi' := hs.inv (hf i)
  have hg : (s.flow i).log.Grows fl'.log := hs.grows
  intro k t p hp hfill
  change sh'.fs.leaf t.file = some (.file p)
  -- a file not at the writer keeps its contents
  have hkeep : ∀ {k}, t ∈ ((s.put i (sh', fl')).flow k).log.born → s.sh.fs.leaf t.file = some (.file p) →
      (∀ j i', Hands (s.flow i) fl' [Flow.placedFile j i'] [] [] → k = i → t ≠ Flow.placedFile j i') →
      (∀ o bytes rest, (s.flow i).writer = .write o (bytes ++ rest) → bytes ≠ [] →
        fl'.writer = .write ⟨o.t, o.off + bytes.length⟩ rest → k = i → t ≠ o.t) →
      sh'.fs.leaf t.file = some (.file p) := by
    intro k ht hl hplace hfill
    rcases he.writes (lt_of_leaf hl) (by rw [hl]; simp) with heq | hw
    · unfold Fs.leaf Fs.node at hl ⊢; rw [heq]; exact hl
    · cases hw with
      | @place j _ _ hn _ _ _ hh =>
        have hb : Flow.placedFile j t.file ∈ ((s.put i (sh', fl')).flow i).log.born := by
          rw [put_flow, hh.born]; simp
        obtain ⟨hk, h⟩ := hS.apart ht hb hp rfl
        exact absurd h (hplace _ _ hh hk)
      | @fill o _ _ _ hw ho _ _ hne hw' =>
        have hb : o.t ∈ fl'.log.born := hg.born.subset ((hf i).token_born (by
          rw [tokens_eq, hw]; exact List.mem_append_right _ (List.mem_singleton_self _)))
        obtain ⟨hk, h⟩ := hS.apart ht (by rw [put_flow]; exact hb) hp ho
        exact absurd h (hfill _ _ _ hw hne hw' hk)
      | chmod _ _ h | stamp _ _ h => exact h.trans hl
      | date _ _ h => exact h.trans hl
  by_cases hk : k = i
  · subst hk
    rw [put_flow] at hfill
    have hone : fl'.log.born.count t ≤ 1 := by have := hS.once (i := k) hp; rwa [put_flow] at this
    rcases hs.filled (hf k) hfill with hold | ⟨ho, rfl⟩ | ⟨o, bytes, q, b, ha⟩
    · refine hkeep (by rw [put_flow]; exact hfill.born hi') (h hp hold) ?_ ?_
      · -- a file is created once
        rintro j i' hh - rfl
        have h1 := List.count_pos_iff.2 (hold.born (hf k))
        rw [hh.born, List.count_append, List.count_singleton_self] at hone
        omega
      · -- the bytes just written are not missing from what it should hold
        rintro o bytes rest hw hne hw' - rfl
        have hone0 := (hg.born.sublist.count_le _).trans hone
        have h0 := hold.writing_of (hf k) hone0 (by rw [hw]; exact List.mem_singleton_self _)
        have h1 := hfill.writing_of hi' hone (by rw [hw']; exact List.mem_singleton_self _)
        rw [hw] at h0
        rw [hw', hs.taken_of_write hw] at h1
        have heq := (Prod.mk.inj (Option.some.inj (h0.2.symm.trans h1.2))).2
        rw [List.append_cancel_left_eq] at heq
        exact hne (List.append_left_eq_self.1 heq)
    · exact ho.file
    · have hq := h hp ha.filled
      rw [ha.before] at hq
      cases hq
      rw [ha.after, ha.eq, ← ha.off, overwrite_end]
  · rw [put_flow_ne _ _ hk] at hfill
    refine hkeep (by rw [put_flow_ne _ _ hk]; exact hfill.born (hf k)) (h hp hfill) ?_ ?_
    · exact fun _ _ _ hk' => absurd hk' hk
    · exact fun _ _ _ _ _ _ hk' => absurd hk' hk

theorem contents_inv {ok : State → Act → State → Prop} (h : Reach (step cfg) ok (.init cfg fs0) s) :
    Sole P s → Contents P s := by
  refine h.invariant_while (I := Contents P) (P := Sole P) ?_ (fun s a s' hst hd => hd.mono (step_grows hst)) ?_
  · intro i t p _ hfill
    have := hfill.born (.init cfg)
    cases this
  · intro s a s' hr _ hS ih hst _
    rcases step_cases hst with ⟨i, c, sh', fl', -, hf, rfl⟩ | ⟨ha, -⟩
    · exact ih.flowStep (fun i => flow_inv hr i) hS hf
    · intro i t p hp hfill
      obtain ⟨w, e, he⟩ := ha.flow i
      rw [he] at hfill
      rw [ha.fs]
      refine ih hp (i := i) ?_
      cases hfill with
      | waiting h h' => exact .waiting h h'
      | writing h => exact .writing h
      | committed h => exact .committed h

theorem Disk.sole (h : Disk cfg fs0 s) : Sole (fun t => t.scratch = true) s := by
  refine ⟨fun {i k t u} ht hu hs he => ?_, fun {i t} hs => ?_⟩
  · have ht' := mem_scratches.2 ⟨ht, hs⟩
    exact h.apart.eq ht' (mem_scratches.2 ⟨hu, h.mixed ht' hu he⟩) he
  · rw [← List.count_filter (p := InFlight.scratch) hs]
    exact List.nodup_iff_count_le_one.1 (h.apart.of_map.nodup i) t

/-! ## Committed files -/

theorem forall₂_mem {α β : Type*} {R : α → β → Prop} : ∀ {l : List α} {m : List β}, List.Forall₂ R l m → ∀ {x}, x ∈ l →
    ∃ y ∈ m, R x y
  | _ :: _, _ :: _, .cons h hs, x, hx => by
    rcases List.mem_cons.1 hx with rfl | hx
    · exact ⟨_, List.mem_cons_self .., h⟩
    · obtain ⟨y, hy, hr⟩ := forall₂_mem hs hx
      exact ⟨y, List.mem_cons_of_mem _ hy, hr⟩

/-- A committed file is the one a completed frame of the stream describes. -/
theorem FlowInv.committed_frame {q : InFlight × Bytes} (h : FlowInv cfg fl) (hq : q ∈ fl.log.committed) :
    ∃ fr ∈ fl.log.done, fr.entry.kind = .file ∧ Delivered q fr := by
  have hfiles : (tally fl.log.taken).files <+: (tally fl.log.sent).files := by
    rw [← tally_sunk cfg fl.log.sent]
    exact files_mono h.pipe.taken
  have hmem : q ∈ (tally fl.log.sent).files := hfiles.subset (List.mem_of_mem_take hq)
  obtain ⟨fr, hfr, hd⟩ := forall₂_mem h.net.log.files hmem
  rw [List.mem_filter] at hfr
  exact ⟨fr, hfr.1, by simpa [Frame.isFile] using hfr.2, hd⟩

theorem FlowInv.carries {fr : Frame} (h : FlowInv cfg fl) (hfr : fr ∈ fl.log.done) : Carries cfg fl.log.got fr := by
  obtain ⟨tail, ht⟩ := h.net.log.got
  rw [ht]
  exact .of_mem h.net.log.whole hfr

end Thunderflash.Recv
