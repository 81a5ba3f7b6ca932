/-
The files a durable session has still to flush: what a step sets of a file leaves it to its writer, and
the writer flushes it or drops it.
-/
import Thunderflash.Recv.Contents
import Thunderflash.Lts.Trace

namespace Thunderflash.Recv

open Codec Posix Fs Lts Thunderflash.Recv.Flow

variable {cfg : Cfg} {c : Choice} {sh sh' : Shared} {fl fl' : Flow} {s s' : State} {t u : InFlight}
  {i k : Nat} {P : Sys × Nat → Prop}

/-! ## The calls of a step -/

/-- The calls that set a file's bytes, mode or mtime. -/
def Sys.Sets : Sys → Prop
  | .openExcl .. | .openTrunc .. | .write .. | .fchmod .. | .futimens .. | .utimensat .. => True
  | _ => False

/-- The calls a writer makes. -/
def Sys.Writers : Sys → Prop
  | .write .. | .fchmod .. | .futimens .. | .fsync .. | .renameat .. | .fstat .. | .unlinkat .. => True
  | _ => False

/-- One call at most has been made, and it was a `P`. -/
def Calls (P : Sys × Nat → Prop) (sh sh' : Shared) : Prop :=
  sh'.trace = sh.trace ∨ ∃ x, P x ∧ sh'.trace = sh.trace ++ [x]

theorem Calls.mono {Q : Sys × Nat → Prop} (h : Calls P sh sh') (hq : ∀ x, P x → Q x) : Calls Q sh sh' :=
  h.imp_right fun ⟨x, hx, ht⟩ => ⟨x, hq x hx, ht⟩

theorem Calls.called {x : Sys × Nat} (h : Calls P sh sh') (hx : sh'.trace = sh.trace ++ [x]) : P x := by
  rcases h with he | ⟨y, hy, he⟩
  · rw [he] at hx
    simpa using congrArg List.length hx
  · rw [he] at hx
    obtain ⟨-, hlast⟩ := List.append_inj' hx rfl
    cases hlast
    exact hy

theorem call_calls {sys : Sys} (h : ∀ i, (call cfg c sh sys).2 = .ok i → P (sys, i)) : Calls P sh (call cfg c sh sys).1 := by
  rcases call_cases cfg c sh sys with ⟨i, hi, -, hd⟩ | ⟨e, -, he⟩
  · exact .inr ⟨(sys, i), h i hi, hd.trace⟩
  · rw [he]; exact .inl rfl

theorem calls_of_eq {sys : Sys} {r : Except Errno Nat} (hc : call cfg c sh sys = (sh', r))
    (h : ∀ i, r = .ok i → P (sys, i)) : Calls P sh sh' := by
  rcases call_cases cfg c sh sys with ⟨i, hi, -, hd⟩ | ⟨e, -, he⟩
  · rw [hc] at hi hd
    exact .inr ⟨(sys, i), h i hi, hd.trace⟩
  · rw [hc] at he
    exact .inl (congrArg Shared.trace he)

theorem dropMsg_calls {m : Msg} (hp : fl.dropMsg cfg c m sh = (sh', fl')) (h : ∀ d n i, P (.unlinkat d n, i)) :
    Calls P sh sh' := by
  unfold dropMsg at hp
  split at hp
  · obtain ⟨rfl, -⟩ := Prod.mk.inj hp
    exact call_calls fun i _ => h _ _ i
  · cases hp
    exact .inl rfl

theorem undo_calls (hp : fl.undo cfg c t sh = (sh', fl')) (h : ∀ d n i, P (.unlinkat d n, i)) : Calls P sh sh' :=
  dropMsg_calls (m := .begin t) hp h

theorem hashStep_calls (h : fl.hashStep cfg c sh = some (sh', fl')) (hu : ∀ d n i, P (.unlinkat d n, i)) : Calls P sh sh' := by
  unfold hashStep at h
  split at h
  case h_1 =>
    split at h
    · cases h; exact .inl rfl
    · cases h; exact .inl rfl
    · cases h; exact .inl rfl
    · split at h <;> cases h; exact .inl rfl
  case h_2 =>
    split at h
    · cases h; exact .inl rfl
    · split at h <;> cases h; exact .inl rfl
  case h_3 => exact dropMsg_calls (Option.some.inj h) hu
  case h_4 => exact dropMsg_calls (Option.some.inj h) hu
  case h_5 => cases h

/-! ## Files not flushed yet -/

/-- What of a writer's files is still to be flushed. -/
def WriterPc.unflushed : WriterPc → List InFlight
  | .rename .. => []
  | w => w.tokens

/-- The files of a flow that are still to be flushed. -/
def Flow.unflushed (fl : Flow) : List InFlight := fl.front ++ fl.writer.unflushed

theorem unflushed_token (h : t ∈ fl.unflushed) : t ∈ fl.tokens := by
  rw [tokens_eq]
  rcases List.mem_append.1 h with h | h
  · exact List.mem_append_left _ h
  · refine List.mem_append_right _ ?_
    unfold WriterPc.unflushed at h
    split at h
    · cases h
    · exact h

/-- Setting something of a file leaves it to be flushed. -/
def Owes (fl : Flow) (x : Sys × Nat) : Prop := Sys.Sets x.1 → ∃ u ∈ fl.unflushed, u.file = x.2

theorem handle_trace (current : Option Cursor) (m : Msg) (sh : Shared) (fl : Flow) :
    (fl.handle current m sh).1.trace = sh.trace := by
  unfold handle
  split <;> rfl

theorem writerStep_calls (hd : cfg.durable = true) (h : fl.writerStep cfg c sh = some (sh', fl')) :
    Calls (fun x => Sys.Writers x.1 ∧ Owes fl' x) sh sh' := by
  unfold writerStep at h
  split at h
  case h_1 current hw =>
    split at h
    · rename_i m q _ _
      obtain rfl := congrArg Prod.fst (Option.some.inj h)
      exact .inl (handle_trace ..)
    all_goals
      split at h <;> cases h
      exact .inl rfl
  case h_2 => exact undo_calls (Option.some.inj h) fun _ _ _ => ⟨trivial, fun hs => hs.elim⟩
  case h_3 o bytes hw =>
    split at h
    · cases h; exact .inl rfl
    · split at h
      · split at h <;> cases h
        · rename_i hc
          refine calls_of_eq hc fun i hi => ⟨trivial, fun _ => ⟨o.t, ?_, ?_⟩⟩
          · exact List.mem_append_right _ (List.mem_singleton_self _)
          · rw [hi] at hc
            exact (exec_write (call_did hc).exec).choose_spec.2.1.symm
        · rename_i hc
          exact calls_of_eq hc fun i hi => by cases hi
      · cases h
  case h_4 t hw =>
    cases h
    refine call_calls fun i hi => ⟨trivial, fun _ => ⟨t, ?_, ?_⟩⟩
    · exact List.mem_append_right _ (List.mem_singleton_self _)
    · exact (exec_fchmod (call_ok hi).2.exec).2.1.symm
  case h_5 t hw =>
    obtain ⟨rfl, rfl⟩ := Prod.mk.inj (Option.some.inj h)
    refine call_calls fun i hi => ⟨trivial, fun _ => ⟨t, ?_, ?_⟩⟩
    · rw [if_pos hd]
      exact List.mem_append_right _ (List.mem_singleton_self _)
    · exact (exec_futimens (call_ok hi).2.exec).2.1.symm
  case h_6 t hw =>
    split at h <;> cases h
    all_goals
      rename_i hc
      exact calls_of_eq hc fun i _ => ⟨trivial, fun hs => hs.elim⟩
  case h_7 t final hw =>
    split at h <;> cases h
    all_goals
      rename_i hc
      exact calls_of_eq hc fun i _ => ⟨trivial, fun hs => hs.elim⟩
  case h_8 t hw =>
    split at h <;> cases h
    · rename_i hc
      unfold Calls
      rw [(register_fs _ _).2]
      exact calls_of_eq hc fun i _ => ⟨trivial, fun hs => hs.elim⟩
    · rename_i hc
      exact calls_of_eq hc fun i _ => ⟨trivial, fun hs => hs.elim⟩
  case h_9 => exact undo_calls (Option.some.inj h) fun _ _ _ => ⟨trivial, fun hs => hs.elim⟩
  case h_10 => cases h; exact call_calls fun i _ => ⟨trivial, fun hs => hs.elim⟩
  case h_11 => exact undo_calls (Option.some.inj h) fun _ _ _ => ⟨trivial, fun hs => hs.elim⟩
  case h_12 => exact dropMsg_calls (Option.some.inj h) fun _ _ _ => ⟨trivial, fun hs => hs.elim⟩
  case h_13 => cases h

theorem netResume_trace (cfg : Cfg) (c : Choice) (r : Except Errno Nat) (sh : Shared) (fl : Flow) :
    (fl.netResume cfg c r sh).1.trace = sh.trace := by
  unfold netResume
  repeat' split
  all_goals first | rfl | exact (register_fs _ _).2

/-- The net thread stamps inode `x.2` by name. -/
def Flow.Stamps (sh : Shared) (fl : Flow) (x : Sys × Nat) : Prop :=
  ∃ j, (fl.net = .at j .dirStamp ∨ fl.net = .at j .linkStamp) ∧ sh.fs.entry j.dir j.name = some x.2

theorem born_unflushed (fl : Flow) (j : Job) (t : InFlight) : t ∈ ((fl.logBorn t).goto j (.sendBegin t)).unflushed :=
  List.mem_append_left _ (List.mem_append_left _ (List.mem_singleton_self t))

theorem netStep_calls (h : fl.netStep cfg c sh = some (sh', fl')) :
    Calls (fun x => Sys.Sets x.1 → (∃ u ∈ fl'.unflushed, u.file = x.2) ∨ fl.Stamps sh x) sh sh' := by
  unfold netStep at h
  split at h
  · rename_i sys hreq
    have hpair := Option.some.inj h
    obtain rfl := congrArg Prod.fst hpair
    obtain rfl := congrArg Prod.snd hpair
    unfold Calls
    rw [netResume_trace]
    refine call_calls fun i hi hs => ?_
    have hdid := (call_ok hi).2
    unfold netRequest at hreq
    split at hreq
    case h_5 j hn | h_8 j hn =>
      cases hreq
      right
      exact ⟨j, by simp [hn], (exec_utimensat hdid.exec).2.1⟩
    case h_10 j tries hn | h_11 j again hn =>
      cases hreq
      left
      simp only [netResume, hn, hi]
      exact ⟨_, born_unflushed _ _ _, rfl⟩
    case h_7 => split at hreq <;> cases hreq; exact hs.elim
    case h_14 => cases hreq
    all_goals
      cases hreq
      exact hs.elim
  · exact .inl (netLocal_move h).1.2.1

/-! ## What becomes of a file to be flushed -/

theorem Hands.front_perm {born kept undone : List InFlight} (h : Hands fl fl' born kept undone)
    (hw : fl'.writer.tokens = fl.writer.tokens) : (fl'.front ++ (kept ++ undone)).Perm (fl.front ++ born) := by
  have hp := h.tokens
  rw [tokens_eq, tokens_eq, hw] at hp
  refine List.perm_iff_count.2 fun a => ?_
  have := hp.count_eq a
  simp only [List.count_append] at this ⊢
  omega

/-- While the writer rests, the files before it stay there or are dropped. -/
theorem FlowStep.front_kept (h : FlowStep cfg c sh fl sh' fl') (hw : fl'.writer = fl.writer)
    (hk : fl'.log.kept = fl.log.kept) (hu : u ∈ fl.front) : u ∈ fl'.front ∨ u ∈ fl'.log.undone := by
  obtain ⟨born, kept, undone, hh⟩ := h.effect.hands
  obtain rfl : kept = [] := by
    have := hh.kept
    rwa [hk, eq_comm, List.append_right_eq_self] at this
  have := (hh.front_perm (by rw [hw])).symm.subset (List.mem_append_left _ hu)
  rw [List.nil_append, List.mem_append] at this
  exact this.imp_right fun hm => by rw [hh.undone]; exact List.mem_append_right _ hm

/-- The file has been flushed in this step. -/
def Flushed (sh sh' : Shared) (i : Nat) : Prop := sh'.trace = sh.trace ++ [(.fsync i, i)]

theorem dropMsg_undone {m : Msg} (hp : fl.dropMsg cfg c m sh = (sh', fl')) (ht : t ∈ m.inFlight.toList) :
    t ∈ fl'.log.undone := by
  unfold dropMsg at hp
  split at hp
  · rename_i u hu
    cases hp
    rw [hu, Option.toList_some, List.mem_singleton] at ht
    rw [ht]
    exact List.mem_append_right _ (List.mem_singleton_self u)
  · rename_i hu
    rw [hu] at ht
    cases ht

theorem undo_undone (hp : fl.undo cfg c t sh = (sh', fl')) : t ∈ fl'.log.undone :=
  dropMsg_undone (m := .begin t) hp (List.mem_singleton_self t)

theorem handle_unflushed {current : Option Cursor} {m : Msg} (hw : fl.writer = .recv current)
    (hu : u ∈ fl.front ∨ u ∈ m.inFlight.toList ∨ u ∈ (WriterPc.recv current).tokens) :
    u ∈ (fl.handle current m sh).2.unflushed := by
  have hfront : ∀ {fl' : Flow}, fl'.front = fl.front → u ∈ fl.front → u ∈ fl'.unflushed := fun he hu => by
    rw [Flow.unflushed, he]
    exact List.mem_append_left _ hu
  have hback : ∀ {fl' : Flow}, u ∈ fl'.writer.unflushed → u ∈ fl'.unflushed := List.mem_append_right _
  unfold handle
  split
  case h_1 t =>
    rcases hu with hu | hu | hu
    · exact hfront rfl hu
    · exact hback hu
    · cases hu
  case h_2 t old =>
    rcases hu with hu | hu | hu
    · exact hfront rfl hu
    · exact hback (List.mem_cons_of_mem _ hu)
    · exact hback (List.mem_cons.2 (.inl (List.mem_singleton.1 hu)))
  case h_3 | h_5 =>
    rcases hu with hu | hu | hu
    · exact hfront rfl hu
    · cases hu
    · cases hu
  case h_4 bytes o =>
    rcases hu with hu | hu | hu
    · exact hfront rfl hu
    · cases hu
    · exact hback hu
  case h_6 o =>
    rcases hu with hu | hu | hu
    · exact hfront rfl hu
    · cases hu
    · refine hback ?_
      dsimp only
      split <;> exact hu
  case h_7 =>
    rcases hu with hu | hu | hu
    · exact hfront rfl hu
    · cases hu
    · refine hback ?_
      rw [hw]
      exact hu

/-- A writer that gives up drops what is queued later. -/
theorem writerFail_unflushed (e : Err) (hu : u ∈ fl.front) : u ∈ (fl.writerFail e).unflushed := by
  have hmem : u ∈ fl.net.tokens ∨ u ∈ inFlights fl.hq ∨ u ∈ fl.hash.tokens ∨ u ∈ inFlights fl.wq := by
    simpa only [Flow.front, List.mem_append] using hu
  rcases hmem with h | h | h | h
  · exact List.mem_append_left _ (List.mem_append_left _ h)
  · exact List.mem_append_left _ (List.mem_append_right _ (List.mem_append_left _ h))
  · exact List.mem_append_left _ (List.mem_append_right _ (List.mem_append_right _ (List.mem_append_left _ h)))
  · exact List.mem_append_right _ h

/-- Its writer flushes a file before it lets go of it, or drops it. -/
theorem writerStep_unflushed (hd : cfg.durable = true) (h : fl.writerStep cfg c sh = some (sh', fl'))
    (hu : u ∈ fl.unflushed) : u ∈ fl'.unflushed ∨ u ∈ fl'.log.undone ∨ Flushed sh sh' u.file := by
  unfold writerStep at h
  split at h
  case h_1 current hw =>
    split at h
    · rename_i m q _ hq
      obtain rfl := congrArg Prod.snd (Option.some.inj h)
      left
      refine handle_unflushed hw ?_
      unfold Flow.unflushed Flow.front at hu
      rw [hq, hw, inFlights_cons] at hu
      simp only [List.mem_append] at hu
      unfold Flow.front
      simp only [List.mem_append]
      tauto
    · split at h <;> cases h
      left
      rcases List.mem_append.1 hu with hu | hu
      · exact List.mem_append_left _ hu
      · rw [hw] at hu; cases hu
    · split at h <;> cases h
      left
      rcases List.mem_append.1 hu with hu | hu
      · exact List.mem_append_left _ hu
      · rw [hw] at hu
        exact List.mem_append_right _ hu
  case h_2 old t hw =>
    have hp := Option.some.inj h
    obtain ⟨undone, he⟩ := undo_eq hp
    rcases List.mem_append.1 hu with hu | hu
    · left
      rw [he]
      exact List.mem_append_left _ hu
    · rw [hw] at hu
      rcases List.mem_cons.1 hu with rfl | hu
      · exact .inr (.inl (undo_undone hp))
      · left
        rw [he]
        exact List.mem_append_right _ hu
  case h_3 o bytes hw =>
    left
    have hkeep : ∀ {fl' : Flow}, fl'.front = fl.front → fl'.writer.unflushed = [o.t] → u ∈ fl'.unflushed := by
      intro fl' hq hw'
      unfold Flow.unflushed at hu ⊢
      rw [hq, hw']
      rw [hw] at hu
      exact hu
    split at h
    · cases h; exact hkeep rfl rfl
    · split at h
      · split at h <;> cases h <;> exact hkeep rfl rfl
      · cases h
  case h_4 t hw =>
    cases h
    left
    unfold Flow.unflushed at hu
    rw [hw] at hu
    exact hu
  case h_5 t hw =>
    obtain rfl := congrArg Prod.snd (Option.some.inj h)
    left
    rw [if_pos hd]
    unfold Flow.unflushed at hu
    rw [hw] at hu
    exact hu
  case h_6 t hw =>
    split at h
    · rename_i sh1 i hc
      cases h
      rcases List.mem_append.1 hu with hu | hu
      · left
        rcases settle_cases t fl with ⟨final, -, he⟩ | ⟨-, he⟩ <;> rw [he] <;> exact List.mem_append_left _ hu
      · -- the file is flushed
        rw [hw] at hu
        obtain rfl := List.mem_singleton.1 hu
        have hdid := call_did hc
        obtain rfl := (exec_fsync hdid.exec).2
        exact .inr (.inr hdid.trace)
    · cases h
      left
      unfold Flow.unflushed at hu
      rw [hw] at hu
      exact hu
  case h_7 t final hw =>
    left
    have hu' : u ∈ fl.front := by
      rcases List.mem_append.1 hu with hu | hu
      · exact hu
      · rw [hw] at hu; cases hu
    split at h <;> cases h <;> exact List.mem_append_left _ hu'
  case h_8 t hw =>
    left
    have hu' : u ∈ fl.front := by
      rcases List.mem_append.1 hu with hu | hu
      · exact hu
      · rw [hw] at hu; cases hu
    split at h <;> cases h <;> exact List.mem_append_left _ hu'
  case h_9 t e hw =>
    have hp := Option.some.inj h
    obtain ⟨undone, he⟩ := undo_eq hp
    rcases List.mem_append.1 hu with hu | hu
    · left
      rw [he]
      exact writerFail_unflushed e hu
    · rw [hw] at hu
      obtain rfl := List.mem_singleton.1 hu
      exact .inr (.inl (undo_undone hp))
  case h_10 t e hw =>
    cases h
    left
    rcases List.mem_append.1 hu with hu | hu
    · exact writerFail_unflushed e hu
    · rw [hw] at hu; cases hu
  case h_11 t hw =>
    have hp := Option.some.inj h
    obtain ⟨undone, he⟩ := undo_eq hp
    rcases List.mem_append.1 hu with hu | hu
    · left
      rw [he]
      exact List.mem_append_left _ hu
    · rw [hw] at hu
      obtain rfl := List.mem_singleton.1 hu
      exact .inr (.inl (undo_undone hp))
  case h_12 m l r hw =>
    have hp := Option.some.inj h
    obtain ⟨undone, he⟩ := dropMsg_eq hp
    rcases List.mem_append.1 hu with hu | hu
    · left
      rw [he]
      exact List.mem_append_left _ hu
    · rw [hw] at hu
      have hu : u ∈ inFlights (m :: l) := hu
      rw [inFlights_cons, List.mem_append] at hu
      rcases hu with hu | hu
      · exact .inr (.inl (dropMsg_undone hp hu))
      · left
        rw [he]
        exact List.mem_append_right _ hu
  case h_13 => cases h

theorem FlowStep.unflushed (hd : cfg.durable = true) (h : FlowStep cfg c sh fl sh' fl') (hu : u ∈ fl.unflushed) :
    u ∈ fl'.unflushed ∨ u ∈ fl'.log.undone ∨ Flushed sh sh' u.file := by
  have hrest : fl'.writer = fl.writer → fl'.log.kept = fl.log.kept → u ∈ fl'.unflushed ∨ u ∈ fl'.log.undone ∨
      Flushed sh sh' u.file := by
    intro hw hk
    rcases List.mem_append.1 hu with hu | hu
    · rcases h.front_kept hw hk hu with hu | hu
      · exact .inl (List.mem_append_left _ hu)
      · exact .inr (.inl hu)
    · left
      refine List.mem_append_right _ ?_
      rw [hw]
      exact hu
  cases h with
  | net h =>
    obtain ⟨hw, -, hk⟩ := netStep_writer h
    exact hrest hw hk
  | hash _ h =>
    obtain ⟨_, _, _, _, _, _, rfl⟩ := hashStep_only h
    exact hrest rfl rfl
  | writer h => exact writerStep_unflushed hd h hu

/-- A file that is created is to be flushed. -/
theorem FlowStep.born_unflushed (h : FlowStep cfg c sh fl sh' fl') (ht : t ∈ fl'.log.born) :
    t ∈ fl.log.born ∨ t ∈ fl'.unflushed := by
  cases h with
  | net h =>
    obtain ⟨hw, -, -⟩ := netStep_writer h
    have hnone : ∀ {kept undone}, Hands fl fl' [] kept undone → t ∈ fl.log.born ∨ t ∈ fl'.unflushed := fun hh => by
      rw [hh.born, List.append_nil] at ht
      exact .inl ht
    have hone : ∀ {u}, Hands fl fl' [u] [] [] → t ∈ fl.log.born ∨ t ∈ fl'.unflushed := fun hh => by
      rw [hh.born] at ht
      refine (List.mem_append.1 ht).imp_right fun ht => List.mem_append_left _ ?_
      have := (hh.front_perm (by rw [hw])).symm.subset (List.mem_append_right _ ht)
      simpa using this
    cases (netStep_cases h).2.1 with
    | draw _ _ hh => exact hone hh
    | place _ _ hh => exact hone hh
    | stamp _ _ hh => rcases hh with hh | ⟨-, hh⟩ <;> exact hnone hh
    | _ => exact hnone (by assumption)
  | hash _ h =>
    obtain ⟨_, _, _, _, _, _, rfl⟩ := hashStep_only h
    exact .inl ht
  | writer h =>
    obtain ⟨_, _, _, _, _, _, rfl⟩ := writerStep_only h
    exact .inl ht

/-! ## Files -/

/-- `x` sets something of file `i`, and `x` flushes it. -/
def SetsOf (i : Nat) (x : Sys × Nat) : Prop := Sys.Sets x.1 ∧ x.2 = i

def FlushOf (i : Nat) (x : Sys × Nat) : Prop := x = (.fsync i, i)

/-- File `i` is still to be flushed, or a flow that has failed has let go of it. -/
def Pending (s : State) (i : Nat) : Prop :=
  ∃ k u, (u ∈ (s.flow k).unflushed ∨ u ∈ (s.flow k).log.undone) ∧ u.file = i

/-- Every file created has been flushed after the last call that set something of it, or is still to be. -/
def FilesFlushed (s : State) : Prop :=
  ∀ k t, t ∈ (s.flow k).log.born → Followed (SetsOf t.file) (FlushOf t.file) s.sh.trace ∨ Pending s t.file

theorem not_sets_fsync {i k : Nat} : ¬ SetsOf i (.fsync k, k) := fun h => h.1.elim

theorem Pending.flowStep (hd : cfg.durable = true) (hs : FlowStep cfg c s.sh (s.flow k) sh' fl') (h : Pending s i) :
    Pending (s.put k (sh', fl')) i ∨ Flushed s.sh sh' i := by
  obtain ⟨l, u, hu, rfl⟩ := h
  by_cases hl : l = k
  · subst hl
    have hput : ∀ {v : InFlight}, v ∈ fl'.unflushed ∨ v ∈ fl'.log.undone → Pending (s.put l (sh', fl')) v.file :=
      fun hv => ⟨l, _, by rw [put_flow]; exact hv, rfl⟩
    rcases hu with hu | hu
    · rcases hs.unflushed hd hu with h | h | h
      · exact .inl (hput (.inl h))
      · exact .inl (hput (.inr h))
      · exact .inr h
    · exact .inl (hput (.inr (hs.grows.undone.subset hu)))
  · exact .inl ⟨l, u, by rw [put_flow_ne _ _ hl]; exact hu, rfl⟩

/-- No stamp by name falls on a file that has been flushed. -/
def StampsPending (s : State) (k : Nat) : Prop :=
  ∀ j, ((s.flow k).net = .at j .dirStamp ∨ (s.flow k).net = .at j .linkStamp) → ∀ l t, t ∈ (s.flow l).log.born →
    s.sh.fs.entry j.dir j.name = some t.file → ∃ l' u, u ∈ (s.flow l').unflushed ∧ u.file = t.file

theorem FlowStep.trace (hd : cfg.durable = true) (h : FlowStep cfg c sh fl sh' fl') :
    sh'.trace = sh.trace ∨ ∃ x, sh'.trace = sh.trace ++ [x] := by
  have hcalls : ∀ {P : Sys × Nat → Prop}, Calls P sh sh' → sh'.trace = sh.trace ∨ ∃ x, sh'.trace = sh.trace ++ [x] :=
    fun hc => hc.imp_right fun ⟨x, _, hx⟩ => ⟨x, hx⟩
  cases h with
  | net h => exact hcalls (netStep_calls h)
  | hash _ h => exact hcalls (hashStep_calls (P := fun _ => True) h fun _ _ _ => trivial)
  | writer h => exact hcalls (writerStep_calls hd h)

theorem FilesFlushed.flowStep (hd : cfg.durable = true) (h : FilesFlushed s)
    (hs : FlowStep cfg c s.sh (s.flow k) sh' fl')
    (hsets : ∀ x, sh'.trace = s.sh.trace ++ [x] → Sys.Sets x.1 →
      (∃ u ∈ fl'.unflushed, u.file = x.2) ∨ (StampsPending s k ∧ (s.flow k).Stamps s.sh x)) :
    FilesFlushed (s.put k (sh', fl')) := by
  intro l t ht
  have hpend : Pending s t.file → Followed (SetsOf t.file) (FlushOf t.file) sh'.trace ∨ Pending (s.put k (sh', fl')) t.file := by
    intro hp
    rcases hp.flowStep hd hs with hp | hp
    · exact .inr hp
    · rw [show sh'.trace = _ from hp]
      exact .inl (.close not_sets_fsync rfl)
  have hold : t ∈ (s.flow l).log.born ∨ (l = k ∧ t ∈ fl'.unflushed) := by
    by_cases hl : l = k
    · subst hl
      rw [put_flow] at ht
      exact (hs.born_unflushed ht).imp_right fun hu => ⟨rfl, hu⟩
    · rw [put_flow_ne _ _ hl] at ht
      exact .inl ht
  rcases hold with hold | ⟨-, hnew⟩
  · rcases h l t hold with hf | hp
    · rcases hs.trace hd with he | ⟨x, he⟩
      · rw [show (s.put k (sh', fl')).sh.trace = sh'.trace from rfl, he]
        exact .inl hf
      · by_cases hx : SetsOf t.file x
        · rcases hsets x he hx.1 with ⟨u, hu, hfile⟩ | ⟨hstamp, j, hj, hent⟩
          · exact .inr ⟨k, u, .inl (by rw [put_flow]; exact hu), hfile.trans hx.2⟩
          · -- a stamp by name, of a file that waits for its flush
            rw [hx.2] at hent
            obtain ⟨l', u, hu, hfile⟩ := hstamp j hj l t hold hent
            exact hpend ⟨l', u, .inl hu, hfile⟩
        · rw [show (s.put k (sh', fl')).sh.trace = sh'.trace from rfl, he]
          exact .inl (hf.snoc hx)
    · exact hpend hp
  · exact .inr ⟨k, t, .inl (by rw [put_flow]; exact hnew), rfl⟩

theorem FilesFlushed.aside (h : FilesFlushed s) (ha : Aside s s') : FilesFlushed s' := by
  intro k t ht
  rw [ha.log] at ht
  obtain ⟨l, hl, hlook⟩ := ha.trace
  rcases h k t ht with hf | ⟨k', u, hu, hfile⟩
  · rw [hl]
    refine .inl (hf.append fun x hx hs => ?_)
    have := hlook x hx
    obtain ⟨sys, i⟩ := x
    cases sys <;> first | exact this.elim | exact hs.1.elim
  · refine .inr ⟨k', u, ?_, hfile⟩
    obtain ⟨w, e, he⟩ := ha.flow k'
    rw [he]
    exact hu

end Thunderflash.Recv
