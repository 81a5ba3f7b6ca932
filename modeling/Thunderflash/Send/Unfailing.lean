/-
A lane none of whose calls fails, and whose sources hold what the walk found: it meets no error.
-/
import Thunderflash.Send.Steady

namespace Thunderflash.Send

open Codec Lts

variable {cfg : Cfg} {ln ln' : Lane} {todo : List Item} {item : Item} {c : Choice} {content : Item → Bytes}

/-! ## One step -/

/-- No error has come up in the lane. -/
structure Unspoilt (ln : Lane) : Prop where
  sent : ∀ m ∈ ln.log.sent, ∃ v, m = .ok v
  reader : ∀ e, ln.reader ≠ .sendErr e
  sock : ¬ ln.sock.failed

/-- The reader is filling a buffer from its file. -/
def ReaderPc.fills : ReaderPc → Prop
  | .at _ (.fill ..) _ => True
  | _ => False

/-- The step's own call succeeds, and gives what the source holds and, where a file is read, something of it. -/
def Fine (content : Item → Bytes) (ln : Lane) (a : Act) (_ : Lane) : Prop :=
  match a with
  | .read c => c.fault = none ∧ Reads content ln c ∧ (ln.reader.fills → c.data ≠ [])
  | .sock c => c.fault = none
  | .hash => True

theorem Fine.steady {a : Act} (h : Fine content ln a ln') : Steady content ln a ln' := by
  cases a with
  | read c => exact fun _ => h.2.1
  | hash | sock => trivial

/-- The messages sent are as they were, and the reader goes on. -/
structure Onto (ln ln' : Lane) : Prop where
  sent : ln'.log.sent = ln.log.sent
  reader : ∀ e, ln'.reader ≠ .sendErr e

theorem items_onto (ln : Lane) (todo : List Item) : Onto ln (ln.items todo) := by
  unfold Lane.items
  split <;> exact ⟨rfl, by simp [Lane.leave, Lane.goto]⟩

theorem finish_onto (ln : Lane) (todo : List Item) : Onto ln (ln.finish todo) := by
  have h := items_onto { ln with finished := ln.finished + 1 } todo
  exact ⟨h.sent, h.reader⟩

theorem stream_onto (ln : Lane) (item : Item) (todo : List Item) (n : Nat) : Onto ln (ln.stream cfg item todo n) := by
  unfold Lane.stream
  split
  · exact ⟨rfl, by simp [Lane.goto]⟩
  · split
    · exact ⟨rfl, by simp [Lane.goto]⟩
    · exact finish_onto ln todo

theorem body_onto (ln : Lane) (item : Item) (todo : List Item) : Onto ln (ln.body item todo) := by
  unfold Lane.body
  split
  · exact finish_onto ln todo
  · exact finish_onto ln todo
  · exact ⟨rfl, by simp [Lane.goto]⟩
  · exact ⟨rfl, by simp [Lane.goto]⟩

/-- A reader whose call succeeds sends no error. -/
theorem readStep_unspoilt
    (hr : ∀ item todo', ln.reader = .at item .readLink todo' → (content item).length = item.entry.size.toNat)
    (hf : Fine content ln (.read c) ln') (hs : ln.readStep cfg c = some ln') (hne : ∀ e, ln.reader ≠ .sendErr e) :
    (ln'.log.sent = ln.log.sent ∨ ∃ m, ln'.log.sent = ln.log.sent ++ [.ok m]) ∧ ∀ e, ln'.reader ≠ .sendErr e := by
  obtain ⟨hfault, hreads, hfill⟩ := hf
  have honto : ∀ {ln1 : Lane}, Onto ln ln1 →
      (ln1.log.sent = ln.log.sent ∨ ∃ m, ln1.log.sent = ln.log.sent ++ [.ok m]) ∧ ∀ e, ln1.reader ≠ .sendErr e :=
    fun h => ⟨.inl h.sent, h.reader⟩
  have hsend : ∀ {m : Msg} {next gone : Lane → Lane}, (∀ ln, Onto ln (next ln)) → Onto ln (gone ln) →
      ln.send cfg (.ok m) next gone = some ln' →
      (ln'.log.sent = ln.log.sent ∨ ∃ m, ln'.log.sent = ln.log.sent ++ [.ok m]) ∧ ∀ e, ln'.reader ≠ .sendErr e := by
    intro m next gone hn hg hs
    rcases Lane.send_some hs with ⟨-, rfl⟩ | ⟨-, -, rfl⟩
    · exact honto hg
    · exact ⟨.inr ⟨m, by rw [(hn _).sent, push_sent]⟩, (hn _).reader⟩
  have hleave : Onto ln ln.leave := ⟨rfl, by simp [Lane.leave]⟩
  unfold Reads at hreads
  unfold Lane.readStep at hs
  split at hs
  case h_1 item todo _ => exact hsend (body_onto · item todo) hleave hs
  case h_2 item todo' hk =>
    rw [hfault] at hs
    rw [hk] at hreads
    have hlen : (lossy c.data).length = item.entry.size.toNat := by
      rw [show lossy c.data = content item from hreads]
      exact hr item todo' hk
    cases hs
    -- the target is as long as the walk found it
    rw [if_pos hlen]
    exact honto ⟨rfl, by simp [Lane.goto]⟩
  case h_3 item target todo _ =>
    refine hsend (fun ln => ?_) hleave hs
    split
    · exact ⟨rfl, by simp [Lane.goto]⟩
    · exact finish_onto ln todo
  case h_4 item d todo _ => exact hsend (finish_onto · todo) hleave hs
  case h_5 item todo _ =>
    rw [hfault] at hs
    cases hs
    exact honto (stream_onto ln item todo 0)
  case h_6 item n todo _ =>
    split at hs
    · cases hs
      exact honto ⟨rfl, by simp [Lane.goto]⟩
    · split at hs <;> cases hs
      exact honto (finish_onto ln todo)
  case h_7 item n filled todo' hk =>
    rw [hfault] at hs
    dsimp only at hs
    -- a read that gave nothing would be the end of the file
    rw [if_neg (hfill (by rw [hk]; trivial))] at hs
    split at hs
    · cases hs
      exact honto ⟨rfl, by simp [Lane.goto]⟩
    · split at hs <;> cases hs
      exact honto ⟨rfl, by simp [Lane.goto]⟩
  case h_8 item n bytes todo _ => exact hsend (stream_onto · item todo n) (finish_onto ln todo) hs
  case h_9 item todo _ => exact hsend (finish_onto · todo) (finish_onto ln todo) hs
  case h_10 e hk => exact absurd hk (hne e)
  case h_11 => cases hs

/-- Messages that are none of them errors come out as none. -/
theorem sunk_unspoilt : ∀ {sent : List (Except Err Msg)}, (∀ m ∈ sent, ∃ v, m = .ok v) →
    ∀ m ∈ (sunk cfg sent).2, ∃ v, m = .ok v := by
  intro sent
  induction sent using List.reverseRecOn with
  | nil => intro _ m hm; cases hm
  | append_singleton sent m ih =>
    intro hall y hy
    obtain ⟨v, rfl⟩ := hall m (by simp)
    obtain ⟨v', hv'⟩ := @sunk_ok cfg sent v
    rw [hv'] at hy
    rcases List.mem_append.1 hy with hy | hy
    · exact ih (fun z hz => hall z (by simp [hz])) y hy
    · exact ⟨v', List.mem_singleton.1 hy⟩

/-- A socket loop whose calls succeed and that is sent no error stops at none. -/
theorem sockStep_unspoilt (hq : ∀ m ∈ ln.sq, ∃ v, m = .ok v) (hf : c.fault = none) (hs : ln.sockStep cfg c = some ln')
    (hp : ln'.sock ≠ .panicked) (hk : ¬ ln.sock.failed) : ¬ ln'.sock.failed := by
  unfold Lane.sockStep at hs
  split at hs
  case h_1 =>
    split at hs
    · rename_i e q he
      obtain ⟨v, hv⟩ := hq (.error e) (by rw [he]; simp)
      cases hv
    · cases hs
      exact absurd rfl hp
    · cases hs
      exact id
    · split at hs <;> cases hs
      exact id
  case h_2 m _ =>
    cases hs
    cases m <;> exact id
  case h_3 =>
    rw [hf] at hs
    dsimp only at hs
    split at hs <;> cases hs
    rename_i hk' _
    exact id
  case h_4 hk' =>
    rw [hk'] at hk
    exact absurd trivial hk
  case h_5 =>
    split at hs <;> cases hs
    split <;> exact id
  case h_6 => split at hs <;> cases hs; exact id
  case h_7 =>
    rw [hf] at hs
    cases hs
    exact id
  case h_8 => cases hs
  case h_9 => cases hs

/-! ## Runs -/

/-- A lane meets no error while its calls succeed and its links are as long as they were. -/
theorem unspoilt_inv (hl : ∀ item ∈ todo, item.entry.kind = .symlink → (content item).length = item.entry.size.toNat)
    (h : Reach (step cfg) (Fine content) (.init cfg todo) ln) : Unspoilt ln := by
  refine h.invariant (I := Unspoilt) ?_ ?_
  · obtain ⟨r, hr⟩ := Lane.init_eq cfg todo
    have hreader : ∀ e, (Lane.init cfg todo).reader ≠ .sendErr e := by
      intro e
      unfold Lane.init
      exact (items_onto _ todo).reader e
    refine ⟨fun m hm => ?_, hreader, ?_⟩
    · rw [hr] at hm
      cases hm
    · rw [hr]
      exact id
  intro ln a ln' hr ih hst ho
  have hsteady : Reach (step cfg) (Steady content) (.init cfg todo) ln := hr.mono fun _ _ _ hf => hf.steady
  have hpiped := piped_inv (steady_source content) hsteady ih.sock
  cases a with
  | read c =>
    have hs : ln.readStep cfg c = some ln' := hst
    have hlink : ∀ item todo', ln.reader = .at item .readLink todo' → (content item).length = item.entry.size.toNat := by
      intro item todo' hk
      have hpc := hpiped.reader
      rw [hk] at hpc
      obtain ⟨done, -, htodo, hkind, -⟩ := hpc
      exact hl item (by rw [htodo]; simp) hkind
    obtain ⟨hsent, hreader⟩ := readStep_unspoilt hlink ho hs ih.reader
    refine ⟨?_, hreader, ?_⟩
    · rcases hsent with he | ⟨v, he⟩
      · rw [he]
        exact ih.sent
      · rw [he]
        intro m hm
        rcases List.mem_append.1 hm with hm | hm
        · exact ih.sent m hm
        · exact ⟨v, List.mem_singleton.1 hm⟩
    · have hsock : ln'.sock = ln.sock := by
        cases (Lane.readStep_move hs).2 with
        | goes he => subst he; rfl
        | take _ he => subst he; rfl
        | push _ _ he =>
          subst he
          unfold Lane.push
          split <;> rfl
      rw [hsock]
      exact ih.sock
  | hash =>
    rw [show step cfg ln .hash = if cfg.verify then ln.hashStep cfg else none from rfl] at hst
    split at hst
    · obtain ⟨-, rq, hasher, sq, hash, rfl⟩ := Lane.hashStep_only hst
      exact ⟨ih.sent, ih.reader, ih.sock⟩
    · cases hst
  | sock c =>
    have hs : ln.sockStep cfg c = some ln' := hst
    have hout := @sunk_unspoilt cfg _ ih.sent
    -- what is queued was sent, so there is no error in the queue
    have hqueue : ∀ m ∈ ln.sq, ∃ v, m = .ok v := fun m hm =>
      hout m (hpiped.fed.out_isPrefix.subset (List.mem_append_right _ (List.mem_append_left _ hm)))
    have hpanic : ln'.sock ≠ .panicked := by
      intro hk
      have hw := (written_inv (steady_source content) ((hr.step hst ho).mono fun _ _ _ hf => hf.steady)).wrote
      rw [hk] at hw
      exact hw
    obtain ⟨hsent, hreader⟩ : ln'.log.sent = ln.log.sent ∧ ln'.reader = ln.reader := by
      obtain ⟨_, _, _, _, _, _, _, rfl⟩ := Lane.sockStep_only hs
      exact ⟨rfl, rfl⟩
    refine ⟨by rw [hsent]; exact ih.sent, by rw [hreader]; exact ih.reader, ?_⟩
    exact sockStep_unspoilt hqueue ho hs hpanic ih.sock

end Thunderflash.Send
