/-
Where the buffers of a lane are: every one is in the pool, in a queue or in a stage's hand until a
stage is on its way out.
-/
import Thunderflash.Send.Steps
import Thunderflash.Lts.Buffers

namespace Thunderflash.Send

open Codec Lts

variable {cfg : Cfg} {c : Choice} {ln ln' : Lane} {todo0 : List Item}

/-! ## The buffers -/

/-- The buffers a message carries. -/
def bufs : Except Err Msg → Nat
  | .ok (.chunk _) => 1
  | _ => 0

def bufsOf (l : List (Except Err Msg)) : Nat := (l.map bufs).sum

@[simp] theorem bufsOf_nil : bufsOf [] = 0 := rfl

@[simp] theorem bufsOf_cons (m : Except Err Msg) (l : List (Except Err Msg)) : bufsOf (m :: l) = bufs m + bufsOf l := by
  simp [bufsOf]

@[simp] theorem bufsOf_append (l l' : List (Except Err Msg)) : bufsOf (l ++ l') = bufsOf l + bufsOf l' := by simp [bufsOf]

def ReaderPc.fill : ReaderPc → Nat
  | .at _ (.fill ..) _ => 1
  | _ => 0

def ReaderPc.full : ReaderPc → Nat
  | .at _ (.sendChunk ..) _ => 1
  | _ => 0

def HashPc.bufs : HashPc → Nat
  | .forward m => Send.bufs m
  | _ => 0

def SockPc.drain : SockPc → Nat
  | .writing (.chunk _) _ => 1
  | _ => 0

def Lane.buffers (ln : Lane) : Buffers where
  pool := ln.pool
  fill := ln.reader.fill
  queued := ln.reader.full + bufsOf ln.rq + ln.hash.bufs + bufsOf ln.sq
  drain := ln.sock.drain

def ReaderPc.failed : ReaderPc → Prop
  | .sendErr _ | .left => True
  | _ => False

/-- Some stage is on its way out. -/
def Lane.halted (cfg : Cfg) (ln : Lane) : Prop :=
  ln.reader.failed ∨ ln.rxGone ∨ (cfg.verify = true ∧ ln.hashLeft)

/-- The reader holds no buffer. -/
def ReaderPc.Empty (pc : ReaderPc) : Prop := pc.fill = 0 ∧ pc.full = 0

namespace Lane

theorem items_empty (todo : List Item) (ln : Lane) : (ln.items todo).reader.Empty := by
  unfold items; split <;> exact ⟨rfl, rfl⟩

theorem finish_empty (todo : List Item) (ln : Lane) : (ln.finish todo).reader.Empty := items_empty _ _

theorem body_empty (item : Item) (todo : List Item) (ln : Lane) : (ln.body item todo).reader.Empty := by
  unfold body
  split
  · exact finish_empty _ _
  · exact finish_empty _ _
  · exact ⟨rfl, rfl⟩
  · exact ⟨rfl, rfl⟩

theorem stream_empty (item : Item) (todo : List Item) (sent : Nat) (ln : Lane) :
    (ln.stream cfg item todo sent).reader.Empty := by
  unfold stream
  split
  · exact ⟨rfl, rfl⟩
  · split
    · exact ⟨rfl, rfl⟩
    · exact finish_empty _ _

theorem push_buffers (m : Except Err Msg) (ln : Lane) :
    bufsOf (ln.push cfg m).rq + bufsOf (ln.push cfg m).sq = bufsOf ln.rq + bufsOf ln.sq + bufs m := by
  unfold push
  dsimp only
  split <;> simp <;> omega

/-- The reader goes on without a buffer, before or after. -/
theorem buffers_goes {r : ReaderPc} {f : Nat} (he : ln' = { ln with reader := r, finished := f }) (h : ln.reader.Empty)
    (h' : ln'.reader.Empty) : ln'.buffers = ln.buffers := by
  subst he
  simp only [buffers, h.1, h.2, show r.fill = 0 from h'.1, show r.full = 0 from h'.2]

theorem buffers_push {r : ReaderPc} {m : Except Err Msg} {f : Nat} (he : ln' = { ln.push cfg m with reader := r, finished := f })
    (h : ln.reader.fill = 0) (hm : ln.reader.full = bufs m) (h' : ln'.reader.Empty) : ln'.buffers = ln.buffers := by
  have hb := @push_buffers cfg m ln
  have hhash : (ln.push cfg m).hash = ln.hash := by unfold push; dsimp only; split <;> rfl
  have hsock : (ln.push cfg m).sock = ln.sock := by unfold push; dsimp only; split <;> rfl
  have hpool : (ln.push cfg m).pool = ln.pool := by unfold push; dsimp only; split <;> rfl
  subst he
  simp only [buffers, h, hm, hhash, hsock, hpool, show r.fill = 0 from h'.1, show r.full = 0 from h'.2, Buffers.mk.injEq]
  exact ⟨trivial, trivial, by omega, trivial⟩

theorem buffers_send {m : Except Err Msg} {next gone : Lane → Lane} {st : Stage} {item : Item} {todo : List Item}
    (hr : ln.reader = .at item st todo) (hfill : (ReaderPc.at item st todo).fill = 0)
    (hm : (ReaderPc.at item st todo).full = bufs m)
    (hn : ∀ ln : Lane, (∃ r f, next ln = { ln with reader := r, finished := f }) ∧ (next ln).reader.Empty)
    (hg : (∃ r f, gone ln = { ln with reader := r, finished := f }) ∧ (gone ln).reader.Empty)
    (h : ln.send cfg m next gone = some ln') : ∃ n, Buffers.Passes (ln'.halted cfg) ln.buffers ln'.buffers n := by
  rw [← hr] at hfill hm
  rcases send_some h with ⟨hs, rfl⟩ | ⟨-, -, rfl⟩
  · obtain ⟨⟨r, f, he⟩, h1, h2⟩ := hg
    refine ⟨0, .lose ?_ ?_ ?_ ?_ ?_⟩
    · unfold sinkGone at hs
      rw [he]
      split at hs
      · exact .inr (.inr ⟨by assumption, hs⟩)
      · exact .inr (.inl hs)
    · rw [he]; exact le_rfl
    · unfold buffers; dsimp only; omega
    · rw [he] at h2 ⊢
      simp only [buffers, show r.full = 0 from h2]
      omega
    · rw [he]; exact le_rfl
  · obtain ⟨⟨r, f, he⟩, h'⟩ := hn (ln.push cfg m)
    exact ⟨0, .keep (buffers_push he hfill hm h')⟩

theorem readStep_passes (h : ln.readStep cfg c = some ln') :
    ∃ n, Buffers.Passes (ln'.halted cfg) ln.buffers ln'.buffers n := by
  have hfin : ∀ todo, ∀ ln : Lane, (∃ r f, ln.finish todo = { ln with reader := r, finished := f }) ∧ (ln.finish todo).reader.Empty := by
    intro todo ln
    obtain ⟨r, hr⟩ := finish_eq todo ln
    exact ⟨⟨r, _, hr⟩, finish_empty _ _⟩
  have hleave : ∀ ln : Lane, (∃ r f, ln.leave = { ln with reader := r, finished := f }) ∧ ln.leave.reader.Empty :=
    fun _ => ⟨⟨_, _, rfl⟩, rfl, rfl⟩
  have hfail : ∀ e, ∃ n, Buffers.Passes ((ln.fail e).halted cfg) ln.buffers (ln.fail e).buffers n := by
    intro e
    refine ⟨0, .lose (.inl trivial) le_rfl (Nat.zero_le _) ?_ le_rfl⟩
    simp only [buffers, fail, ReaderPc.full]
    omega
  have hgoes : ∀ {ln' : Lane}, (∃ r f, ln' = { ln with reader := r, finished := f }) → ln.reader.Empty → ln'.reader.Empty →
      ∃ n, Buffers.Passes (ln'.halted cfg) ln.buffers ln'.buffers n := by
    rintro ln' ⟨r, f, he⟩ h1 h2
    exact ⟨0, .keep (buffers_goes he h1 h2)⟩
  unfold readStep at h
  split at h
  case h_1 hr => exact buffers_send hr rfl rfl (fun ln => ⟨body_eq _ _ _, body_empty _ _ _⟩) (hleave _) h
  case h_2 hr =>
    split at h <;> cases h
    · exact hfail _
    · split
      · exact hgoes ⟨_, _, rfl⟩ (by rw [hr]; exact ⟨rfl, rfl⟩) ⟨rfl, rfl⟩
      · exact hfail _
  case h_3 hr =>
    refine buffers_send hr rfl rfl (fun ln => ?_) (hleave _) h
    split
    · exact ⟨⟨_, _, rfl⟩, rfl, rfl⟩
    · exact hfin _ _
  case h_4 hr => exact buffers_send hr rfl rfl (hfin _) (hleave _) h
  case h_5 hr =>
    split at h <;> cases h
    · exact hfail _
    · exact hgoes (stream_eq _ _ _ _) (by rw [hr]; exact ⟨rfl, rfl⟩) (stream_empty _ _ _ _)
  case h_6 hr =>
    split at h
    · rename_i hp
      cases h
      exact ⟨0, .take hp (by simp [buffers, goto, hr, ReaderPc.fill, ReaderPc.full])⟩
    · split at h <;> cases h
      exact hgoes (hfin _ _).1 (by rw [hr]; exact ⟨rfl, rfl⟩) (hfin _ _).2
  case h_7 hr =>
    split at h
    · cases h; exact hfail _
    · split at h
      · cases h; exact hfail _
      · split at h
        · cases h
          exact ⟨0, .keep (by simp [buffers, goto, hr, ReaderPc.fill, ReaderPc.full])⟩
        · split at h <;> cases h
          refine ⟨1, .send (by simp [buffers, hr, ReaderPc.fill]) ?_⟩
          simp only [buffers, goto, hr, ReaderPc.fill, ReaderPc.full, Buffers.mk.injEq]
          exact ⟨trivial, trivial, by omega, trivial⟩
  case h_8 hr => exact buffers_send hr rfl rfl (fun ln => ⟨stream_eq _ _ _ _, stream_empty _ _ _ _⟩) (hfin _ _) h
  case h_9 hr => exact buffers_send hr rfl rfl (hfin _) (hfin _ _) h
  case h_10 e hr =>
    have he : ln.reader.Empty := by rw [hr]; exact ⟨rfl, rfl⟩
    rcases send_some h with ⟨-, rfl⟩ | ⟨-, -, rfl⟩
    · exact hgoes ⟨_, _, rfl⟩ he ⟨rfl, rfl⟩
    · obtain ⟨⟨r, f, hl⟩, h'⟩ := hleave (ln.push cfg (.error e))
      exact ⟨0, .keep (buffers_push hl he.1 he.2 h')⟩
  case h_11 => cases h

theorem hashStep_passes (hv : cfg.verify = true) (h : ln.hashStep cfg = some ln') :
    ∃ n, Buffers.Passes (ln'.halted cfg) ln.buffers ln'.buffers n := by
  unfold hashStep at h
  split at h
  case h_1 hh =>
    split at h
    all_goals rename_i hq
    · cases h
      refine ⟨0, .keep ?_⟩
      simp only [buffers, hh, hq, HashPc.bufs, bufsOf_cons, Buffers.mk.injEq]
      exact ⟨trivial, trivial, by omega, trivial⟩
    · cases h
      refine ⟨0, .keep ?_⟩
      simp only [buffers, hh, hq, HashPc.bufs, bufsOf_cons, bufs, Nat.zero_add]
    · cases h
      refine ⟨0, .keep ?_⟩
      simp only [buffers, hh, hq, HashPc.bufs, bufsOf_cons, Buffers.mk.injEq]
      exact ⟨trivial, trivial, by omega, trivial⟩
    · split at h <;> cases h
      refine ⟨0, .keep ?_⟩
      simp only [buffers, hh, HashPc.bufs]
  case h_2 m hh =>
    split at h
    · cases h
      refine ⟨0, .lose (.inr (.inr ⟨hv, rfl⟩)) le_rfl le_rfl ?_ le_rfl⟩
      simp only [buffers, bufsOf_nil, HashPc.bufs]
      omega
    · split at h <;> cases h
      refine ⟨0, .keep ?_⟩
      simp only [buffers, hh, HashPc.bufs, bufsOf_append, bufsOf_cons, bufsOf_nil, Buffers.mk.injEq]
      exact ⟨trivial, trivial, by omega, trivial⟩
  case h_3 => cases h

theorem abort_passes (e : Err) (ln : Lane) : ∃ n, Buffers.Passes ((ln.abort e).halted cfg) ln.buffers (ln.abort e).buffers n := by
  refine ⟨0, .lose (.inr (.inl trivial)) le_rfl le_rfl ?_ (Nat.zero_le _)⟩
  simp only [buffers, abort, bufsOf_nil]
  omega

theorem sockStep_passes (h : ln.sockStep cfg c = some ln') :
    ∃ n, Buffers.Passes (ln'.halted cfg) ln.buffers ln'.buffers n := by
  have hsock : ∀ {k : SockPc}, ln.sock.drain = k.drain → ln' = { ln with sock := k } →
      ∃ n, Buffers.Passes (ln'.halted cfg) ln.buffers ln'.buffers n := by
    rintro k hk rfl
    exact ⟨0, .keep (by simp only [buffers, hk])⟩
  unfold sockStep at h
  split at h
  case h_1 hk =>
    split at h
    · cases h; exact abort_passes _ _
    · cases h
      refine ⟨0, .lose (.inr (.inl trivial)) le_rfl le_rfl ?_ (Nat.zero_le _)⟩
      simp only [buffers, bufsOf_nil]
      omega
    · rename_i m q _ hq
      cases h
      cases m with
      | chunk bytes =>
        refine ⟨-1, .recv ?_ ?_⟩
        · simp only [buffers, hq, bufsOf_cons, bufs]
          omega
        · simp only [buffers, hq, hk, bufsOf_cons, bufs, SockPc.drain, Buffers.mk.injEq]
          exact ⟨trivial, trivial, by omega, trivial⟩
      | _ =>
        refine ⟨0, .keep ?_⟩
        simp only [buffers, hq, hk, bufsOf_cons, bufs, SockPc.drain, Nat.zero_add]
    · split at h <;> cases h
      exact hsock (by rw [hk]; rfl) rfl
  case h_2 m hk =>
    cases h
    cases m with
    | chunk bytes =>
      refine ⟨0, .back ?_ ?_⟩
      · simp [buffers, hk, SockPc.drain]
      · simp [buffers, counted, hk, SockPc.drain]
    | _ =>
      refine ⟨0, .keep ?_⟩
      simp only [buffers, counted, hk, SockPc.drain]
  case h_3 m _ _ hk =>
    split at h
    · cases h; exact abort_passes _ _
    · split at h <;> cases h
      refine ⟨0, .keep ?_⟩
      simp only [buffers, hk]
      cases m <;> rfl
  case h_4 hk => cases h; exact hsock (by rw [hk]; rfl) rfl
  case h_5 hk =>
    split at h <;> cases h
    refine hsock ?_ rfl
    rw [hk]
    split <;> rfl
  case h_6 hk => split at h <;> cases h; exact hsock (by rw [hk]; rfl) rfl
  case h_7 hk =>
    split at h <;> cases h
    · exact abort_passes _ _
    · refine ⟨0, .keep ?_⟩
      simp only [buffers, hk, SockPc.drain]
  case h_8 => cases h
  case h_9 => cases h

end Lane

/-- A stage on its way out does not come back. -/
theorem halted_step {a : Act} (h : step cfg ln a = some ln') (hh : ln.halted cfg) : ln'.halted cfg := by
  rcases step_cases h with ⟨c, h⟩ | ⟨hv, h⟩ | ⟨c, h⟩
  · obtain ⟨hl, hm⟩ := Lane.readStep_move h
    have hrest : ln'.sock = ln.sock → ln'.hash = ln.hash → ln.rxGone ∨ (cfg.verify = true ∧ ln.hashLeft) → ln'.halted cfg := by
      intro hs hx hor
      unfold Lane.halted Lane.rxGone Lane.hashLeft
      rw [hs, hx]
      exact .inr hor
    rcases hh with hr | hor
    · -- the error has been sent, or its channel is closed
      unfold ReaderPc.failed at hr
      split at hr
      · rename_i e he
        unfold Lane.readStep at h
        rw [he] at h
        rcases Lane.send_some h with ⟨-, rfl⟩ | ⟨-, -, rfl⟩ <;> exact .inl trivial
      · rename_i he
        exact absurd he hl
      · exact hr.elim
    · cases hm with
      | goes he => subst he; exact hrest rfl rfl hor
      | take _ he => subst he; exact hrest rfl rfl hor
      | push _ _ he =>
        subst he
        unfold Lane.push at hrest ⊢
        dsimp only at hrest ⊢
        split at hrest
        · rw [if_pos (by assumption)]; exact hrest rfl rfl hor
        · rw [if_neg (by assumption)]; exact hrest rfl rfl hor
  · obtain ⟨hn, rq, hasher, sq, hash, rfl⟩ := Lane.hashStep_only h
    rcases hh with hr | hg | ⟨-, hl⟩
    · exact .inl hr
    · exact .inr (.inl hg)
    · exact absurd hl hn
  · rcases hh with hr | hg | hl
    · obtain ⟨_, _, _, _, _, _, _, rfl⟩ := Lane.sockStep_only h
      exact .inl hr
    · refine .inr (.inl ?_)
      unfold Lane.rxGone at hg
      unfold Lane.sockStep at h
      split at h
      case h_1 hk => rw [hk] at hg; exact hg.elim
      case h_2 hk => rw [hk] at hg; exact hg.elim
      case h_3 hk => rw [hk] at hg; exact hg.elim
      case h_4 => cases h; trivial
      case h_5 =>
        split at h <;> cases h
        unfold Lane.rxGone
        dsimp only
        split
        · rename_i hx; split at hx <;> cases hx
        · rename_i hx; split at hx <;> cases hx
        · trivial
      case h_6 => split at h <;> cases h; trivial
      case h_7 => split at h <;> cases h <;> trivial
      case h_8 => cases h
      case h_9 => cases h
    · obtain ⟨_, _, _, _, _, _, _, rfl⟩ := Lane.sockStep_only h
      exact .inr (.inr hl)

/-- Every buffer of a lane is somewhere, unless a stage is on its way out. -/
structure Stocked (cfg : Cfg) (ln : Lane) : Prop where
  bound : ln.buffers.total ≤ cfg.depth + 2
  whole : ¬ ln.halted cfg → ln.buffers.total = cfg.depth + 2

theorem stocked_inv (h : Reachable cfg todo0 ln) : Stocked cfg ln := by
  refine h.invariant ?_ ?_
  · obtain ⟨r, hr⟩ := Lane.init_eq cfg todo0
    have he : (Lane.init cfg todo0).reader.Empty := Lane.items_empty _ _
    have hb : (Lane.init cfg todo0).buffers = ⟨cfg.depth + 2, 0, 0, 0⟩ := by
      rw [hr] at he ⊢
      simp only [Lane.buffers, show r.fill = 0 from he.1, show r.full = 0 from he.2, bufsOf_nil]
      split <;> rfl
    exact ⟨by rw [hb]; exact le_rfl, fun _ => by rw [hb]; rfl⟩
  · intro ln a ln' _ ih hst _
    have hp : ∃ n, Buffers.Passes (ln'.halted cfg) ln.buffers ln'.buffers n := by
      rcases step_cases hst with ⟨c, h⟩ | ⟨hv, h⟩ | ⟨c, h⟩
      · exact Lane.readStep_passes h
      · exact Lane.hashStep_passes hv h
      · exact Lane.sockStep_passes h
    obtain ⟨n, hp⟩ := hp
    exact ⟨hp.total_le.trans ih.bound, fun hn => (hp.total_eq hn).trans (ih.whole fun hx => hn (halted_step hst hx))⟩

end Thunderflash.Send
