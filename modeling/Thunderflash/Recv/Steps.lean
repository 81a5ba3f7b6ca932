/-
A step of the session is one step of one flow, or it leaves the disk and the flows alone.
-/
import Thunderflash.Recv.Writer
import Thunderflash.Lts.Distinct

namespace Thunderflash.Recv

open Codec Posix Lts

variable {cfg : Cfg} {c : Choice} {sh sh' : Shared} {fl fl' : Flow} {s s' : State} {fs0 : Fs}

/-- One step of one of a flow's threads. -/
inductive FlowStep (cfg : Cfg) (c : Choice) (sh : Shared) (fl : Flow) (sh' : Shared) (fl' : Flow) : Prop
  | net : fl.netStep cfg c sh = some (sh', fl') → FlowStep cfg c sh fl sh' fl'
  | hash : cfg.verify = true → fl.hashStep cfg c sh = some (sh', fl') → FlowStep cfg c sh fl sh' fl'
  | writer : fl.writerStep cfg c sh = some (sh', fl') → FlowStep cfg c sh fl sh' fl'

theorem FlowStep.effect (h : FlowStep cfg c sh fl sh' fl') : Effect cfg c sh fl sh' fl' := by
  cases h with
  | net h => exact (netStep_cases h).2.1
  | hash _ h => exact hashStep_effect h
  | writer h => exact writerStep_effect h

theorem FlowStep.inv (h : FlowStep cfg c sh fl sh' fl') (hi : FlowInv cfg fl) : FlowInv cfg fl' := by
  cases h with
  | net h => exact hi.netStep h
  | hash hv h => exact hi.hashStep hv h
  | writer h => exact hi.writerStep h

/-! ## What a log never loses -/

structure Log.Grows (l l' : Log) : Prop where
  heard : l.heard <+: l'.heard
  done : l.done <+: l'.done
  got : l.got <+: l'.got
  born : l.born <+: l'.born
  kept : l.kept <+: l'.kept
  undone : l.undone <+: l'.undone

theorem Log.Grows.refl (l : Log) : l.Grows l :=
  ⟨List.prefix_refl _, List.prefix_refl _, List.prefix_refl _, List.prefix_refl _, List.prefix_refl _, List.prefix_refl _⟩

theorem Log.Grows.trans {l1 l2 l3 : Log} (h : l1.Grows l2) (h' : l2.Grows l3) : l1.Grows l3 :=
  ⟨h.heard.trans h'.heard, h.done.trans h'.done, h.got.trans h'.got, h.born.trans h'.born, h.kept.trans h'.kept,
    h.undone.trans h'.undone⟩

/-- Growing by one element at the end of some lists, or by bytes read. -/
theorem Log.grows_of {l : Log} (heard : List (Entry × List Name)) (done : List Frame) (got : Bytes)
    (born kept undone : List InFlight) {l' : Log} (h1 : l'.heard = l.heard ++ heard) (h2 : l'.done = l.done ++ done)
    (h3 : l'.got = l.got ++ got) (h4 : l'.born = l.born ++ born) (h5 : l'.kept = l.kept ++ kept)
    (h6 : l'.undone = l.undone ++ undone) : l.Grows l' :=
  ⟨⟨_, h1.symm⟩, ⟨_, h2.symm⟩, ⟨_, h3.symm⟩, ⟨_, h4.symm⟩, ⟨_, h5.symm⟩, ⟨_, h6.symm⟩⟩

namespace Flow

variable {j : Job}

@[simp] theorem dispatch_log (fl : Flow) (j : Job) : (fl.dispatch j).log = fl.log := by
  unfold dispatch; split <;> rfl

@[simp] theorem arrive_log (fl : Flow) (j : Job) : (fl.arrive j).log = fl.log := by
  unfold arrive; rw [dispatch_log]

@[simp] theorem linkText_log (fl : Flow) (j : Job) (t : Bytes) : (fl.linkText j t).log = fl.log := by
  unfold linkText; split <;> rfl

theorem complete_grows (fl : Flow) (j : Job) : fl.log.Grows (fl.complete j).log :=
  Log.grows_of [] _ [] [] [] [] (by simp [complete]) rfl (by simp [complete]) (by simp [complete]) (by simp [complete])
    (by simp [complete])

theorem made_grows (fl : Flow) (j : Job) : fl.log.Grows (fl.made cfg j).log := by
  unfold made
  split
  · exact .refl _
  · exact complete_grows fl j

theorem consume_grows (fl : Flow) (rest part trailer : Bytes) :
    fl.log.Grows { (fl.consume rest).log with part, trailer } :=
  Log.grows_of [] [] _ [] [] [] (by simp [consume]) (by simp [consume]) rfl (by simp [consume]) (by simp [consume])
    (by simp [consume])

theorem start_grows (fl : Flow) (e : Entry) : fl.log.Grows (fl.start cfg e).log := by
  unfold start
  split
  · exact .refl _
  · rename_i comps _
    have h : fl.log.Grows { fl.log with heard := fl.log.heard ++ [(e, comps)] } :=
      Log.grows_of _ [] [] [] [] [] rfl (by simp) (by simp) (by simp) (by simp) (by simp)
    dsimp only
    split
    · split
      · rw [dispatch_log]; exact h
      · exact h
    · exact h

theorem send_grows {m : Msg} {next gone : Flow → Flow} (h : fl.send cfg m next gone = some fl')
    (hn : (fl.push cfg m).log.Grows (next (fl.push cfg m)).log) (hg : (gone fl).log = fl.log) : fl.log.Grows fl'.log := by
  rcases send_some h with ⟨-, rfl⟩ | ⟨-, -, rfl⟩
  · rw [hg]; exact .refl _
  · rw [push_log] at hn
    exact ⟨hn.heard, hn.done, hn.got, hn.born, hn.kept, hn.undone⟩

theorem netLocal_grows (h : fl.netLocal cfg c sh = some (sh', fl')) : fl.log.Grows fl'.log := by
  unfold netLocal at h
  split at h
  case h_1 => split at h <;> cases h <;> exact .refl _
  case h_2 =>
    split at h
    · cases h; exact .refl _
    · split at h <;> cases h; exact .refl _
    · cases h; exact .refl _
    · cases h; exact consume_grows fl _ _ _
    · cases h; exact (consume_grows fl _ _ _).trans (start_grows _ _)
  case h_3 =>
    split at h <;> cases h
    · exact .refl _
    · rw [arrive_log]; exact .refl _
    · exact .refl _
  case h_4 =>
    obtain ⟨r, hr, h⟩ := Option.map_eq_some_iff.1 h
    cases r <;> cases h
    · exact .refl _
    · dsimp only
      split
      · exact consume_grows fl _ _ _
      · rw [linkText_log]; exact consume_grows fl _ _ _
  case h_5 =>
    obtain ⟨r, hr, h⟩ := Option.map_eq_some_iff.1 h
    cases r <;> cases h
    · exact .refl _
    · dsimp only
      split
      · rw [linkText_log]; exact consume_grows fl _ _ _
      · exact consume_grows fl _ _ _
  case h_6 => split at h <;> cases h; exact .refl _
  case h_7 =>
    obtain ⟨fl1, h1, h⟩ := Option.map_eq_some_iff.1 h
    cases h
    exact send_grows h1 (.refl _) rfl
  case h_8 =>
    split at h
    · cases h; exact .refl _
    · split at h <;> cases h; exact .refl _
  case h_9 =>
    split at h
    · cases h; exact .refl _
    · split at h
      · cases h; exact consume_grows fl _ _ _
      · split at h <;> cases h; exact .refl _
  case h_10 =>
    obtain ⟨fl1, h1, h⟩ := Option.map_eq_some_iff.1 h
    cases h
    exact send_grows h1 (.refl _) rfl
  case h_11 =>
    obtain ⟨fl1, h1, h⟩ := Option.map_eq_some_iff.1 h
    cases h
    exact send_grows h1 (.refl _) rfl
  case h_12 =>
    split at h
    · cases h; exact .refl _
    · split at h <;> cases h; exact .refl _
    · cases h
  case h_13 =>
    obtain ⟨r, hr, h⟩ := Option.map_eq_some_iff.1 h
    cases r <;> cases h
    · exact .refl _
    · dsimp only
      split <;> exact consume_grows fl _ _ _
  case h_14 j _ =>
    obtain ⟨fl1, h1, h⟩ := Option.map_eq_some_iff.1 h
    cases h
    exact send_grows h1 (complete_grows _ j) rfl
  case h_15 => cases h

theorem born_grows (fl : Flow) (t : InFlight) : fl.log.Grows (fl.logBorn t).log :=
  Log.grows_of [] [] [] _ [] [] (by simp [logBorn]) (by simp [logBorn]) (by simp [logBorn]) rfl (by simp [logBorn])
    (by simp [logBorn])

theorem undone_grows (fl : Flow) (t : InFlight) : fl.log.Grows (fl.logUndone t).log :=
  Log.grows_of [] [] [] [] [] _ (by simp [logUndone]) (by simp [logUndone]) (by simp [logUndone]) (by simp [logUndone])
    (by simp [logUndone]) rfl

theorem netResume_grows (fl : Flow) (r : Except Errno Nat) : fl.log.Grows (fl.netResume cfg c r sh).2.log := by
  unfold netResume
  split
  case h_3 =>
    split
    · rw [arrive_log]; exact .refl _
    · exact .refl _
    · exact .refl _
  case h_5 | h_8 => exact made_grows _ _
  case h_9 =>
    split
    · exact complete_grows _ _
    · exact .refl _
  case h_10 | h_11 =>
    split
    · exact born_grows _ _
    all_goals exact .refl _
  case h_13 => exact undone_grows _ _
  case h_6 | h_14 => exact .refl _
  all_goals split <;> exact .refl _

end Flow

theorem FlowStep.grows (h : FlowStep cfg c sh fl sh' fl') : fl.log.Grows fl'.log := by
  obtain ⟨_, _, _, hh⟩ := h.effect.hands
  cases h with
  | net h =>
    unfold Flow.netStep at h
    split at h
    · obtain rfl := congrArg Prod.snd (Option.some.inj h)
      exact Flow.netResume_grows _ _
    · exact Flow.netLocal_grows h
  | hash _ h =>
    obtain ⟨_, _, _, _, _, _, rfl⟩ := hashStep_only h
    exact Log.grows_of [] [] [] _ _ _ (by simp) (by simp) (by simp) hh.born hh.kept hh.undone
  | writer h =>
    obtain ⟨_, _, _, _, _, _, rfl⟩ := writerStep_only h
    exact Log.grows_of [] [] [] _ _ _ (by simp) (by simp) (by simp) hh.born hh.kept hh.undone

/-! ## The session -/

/-- The calls of the thread that runs `accept_one`, which change nothing. -/
def Sys.looks : Sys → Prop
  | .openDir .. | .fstatat .. | .fsync _ => True
  | _ => False

/-- Bytes may have come and gone on the wires. -/
structure Aside (s s' : State) : Prop where
  fs : s'.sh.fs = s.sh.fs
  regs : s'.sh.regs = s.sh.regs
  inflight : s'.sh.inflight = s.sh.inflight
  trace : ∃ l, s'.sh.trace = s.sh.trace ++ l ∧ ∀ x ∈ l, Sys.looks x.1
  flow : ∀ i, ∃ wire eof, s'.flow i = { s.flow i with wire, eof }

section

variable (h : Aside s s') (i : Nat)

include h

theorem Aside.log : (s'.flow i).log = (s.flow i).log := by obtain ⟨w, e, he⟩ := h.flow i; rw [he]

theorem Aside.net : (s'.flow i).net = (s.flow i).net := by obtain ⟨w, e, he⟩ := h.flow i; rw [he]

theorem Aside.writer : (s'.flow i).writer = (s.flow i).writer := by obtain ⟨w, e, he⟩ := h.flow i; rw [he]

theorem Aside.tokens : (s'.flow i).tokens = (s.flow i).tokens := by obtain ⟨w, e, he⟩ := h.flow i; rw [he]; rfl

end

theorem Aside.of_eq (h : s'.sh = s.sh) (hf : s'.flow = s.flow) : Aside s s' :=
  ⟨by rw [h], by rw [h], by rw [h], ⟨[], by rw [h]; simp, by simp⟩, fun i => ⟨_, _, congrFun hf i⟩⟩

theorem Aside.trans {s1 s2 s3 : State} (h : Aside s1 s2) (h' : Aside s2 s3) : Aside s1 s3 := by
  obtain ⟨l, hl, hlook⟩ := h.trace
  obtain ⟨l', hl', hlook'⟩ := h'.trace
  refine ⟨h'.fs.trans h.fs, h'.regs.trans h.regs, h'.inflight.trans h.inflight, ⟨l ++ l', by rw [hl', hl, List.append_assoc], ?_⟩, fun i => ?_⟩
  · intro x hx
    rcases List.mem_append.1 hx with hx | hx
    · exact hlook x hx
    · exact hlook' x hx
  · obtain ⟨w, e, hf⟩ := h.flow i
    obtain ⟨w', e', hf'⟩ := h'.flow i
    exact ⟨w', e', by rw [hf', hf]⟩

/-- A wire changes. -/
theorem Aside.wire (s : State) (i : Nat) (wire : Bytes) (eof : Bool) :
    Aside s { s with flow := Function.update s.flow i { s.flow i with wire, eof } } := by
  refine ⟨rfl, rfl, rfl, ⟨[], by simp, by simp⟩, fun k => ?_⟩
  by_cases hk : k = i
  · subst hk; exact ⟨wire, eof, by simp⟩
  · exact ⟨(s.flow k).wire, (s.flow k).eof, by simp [Function.update_of_ne hk]⟩

theorem Aside.consume (s : State) (rest : Bytes) : Aside s (s.consume rest) := by
  have h := Aside.wire s 0 rest (s.flow 0).eof
  exact ⟨h.fs, h.regs, h.inflight, h.trace, h.flow⟩

theorem held_aside (s : State) (e : Entry) : Aside s (s.held e) := by
  unfold State.held
  split
  · exact .of_eq rfl rfl
  · split
    · split <;> exact .of_eq rfl rfl
    · exact .of_eq rfl rfl

theorem call_inflight (cfg : Cfg) (c : Choice) (sh : Shared) (sys : Sys) : (call cfg c sh sys).1.inflight = sh.inflight := by
  unfold call
  split
  · rfl
  · split <;> rfl

theorem call_aside {sys : Sys} {r : Except Errno Nat} (h : call cfg c s.sh sys = (sh, r)) (hl : Sys.looks sys) :
    Aside s { s with sh } := by
  rcases call_cases cfg c s.sh sys with ⟨i, -, -, hd⟩ | ⟨e, -, he⟩
  · have hi := call_inflight cfg c s.sh sys
    rw [h] at hd hi
    refine ⟨?_, hd.regs, hi, ⟨[(sys, i)], hd.trace, by simpa using hl⟩, fun k => ⟨_, _, rfl⟩⟩
    cases sys <;> first | exact hl.elim | skip
    · exact (Fs.exec_openDir hd.exec).1
    · exact (Fs.exec_fsync hd.exec).1
    · exact (Fs.exec_fstatat hd.exec).1
  · rw [h] at he
    exact .of_eq he rfl

theorem mainStep_aside (h : mainStep cfg c s = some s') : Aside s s' := by
  unfold mainStep at h
  split at h
  case h_1 => split at h <;> cases h <;> exact .of_eq rfl rfl
  case h_2 =>
    split at h
    · cases h; exact .of_eq rfl rfl
    · split at h <;> cases h; exact .of_eq rfl rfl
    · cases h; exact .of_eq rfl rfl
    · cases h; exact (Aside.consume s _).trans (.of_eq rfl rfl)
    · cases h
      split
      · exact (Aside.consume s _).trans (held_aside _ _)
      · exact Aside.consume s _
  case h_3 => split at h <;> cases h <;> exact .of_eq rfl rfl
  case h_4 =>
    split at h
    all_goals
      rename_i hc _
      cases h
      exact (call_aside (s := s) hc trivial).trans (.of_eq rfl rfl)
  case h_5 =>
    split at h
    all_goals
      rename_i hc
      cases h
      exact (call_aside (s := s) hc trivial).trans (.of_eq rfl rfl)
  case h_6 => split at h <;> cases h <;> exact .of_eq rfl rfl
  case h_7 => split at h <;> cases h <;> exact .of_eq rfl rfl
  case h_8 =>
    split at h
    · split at h <;> cases h <;> exact .of_eq rfl rfl
    · cases h
  case h_9 =>
    split at h
    all_goals
      rename_i hc
      cases h
      exact (call_aside (s := s) hc trivial).trans (.of_eq rfl rfl)
  case h_10 => cases h; exact .of_eq rfl rfl
  case h_11 => split at h <;> cases h <;> exact .of_eq rfl rfl
  case h_12 => cases h

theorem threadStep_some {i : Nat} {f : Shared → Flow → Option (Shared × Flow)} (h : threadStep cfg s i f = some s') :
    ∃ x, Live cfg s i ∧ f s.sh (s.flow i) = some x ∧ s' = s.put i x := by
  unfold threadStep at h
  split at h
  · obtain ⟨x, hx, rfl⟩ := Option.map_eq_some_iff.1 h
    exact ⟨x, by assumption, hx, rfl⟩
  · cases h

/-- The failure an action meets. -/
def Act.fault : Act → Option Fault
  | .net _ c | .hash _ c | .writer _ c | .main c => c.fault
  | _ => none

/-- What one step of the session is. -/
theorem step_faults {a : Act} (h : step cfg s a = some s') :
    (∃ i c sh' fl', Live cfg s i ∧ a.fault = c.fault ∧ FlowStep cfg c s.sh (s.flow i) sh' fl' ∧ s' = s.put i (sh', fl')) ∨
      Aside s s' ∧ (s'.main = s.main ∨ ∃ c, mainStep cfg c s = some s') := by
  cases a with
  | net i c =>
    obtain ⟨⟨sh', fl'⟩, hl, hf, rfl⟩ := threadStep_some h
    exact .inl ⟨i, c, sh', fl', hl, rfl, .net hf, rfl⟩
  | hash i c =>
    simp only [step] at h
    split at h
    · rename_i hv
      obtain ⟨⟨sh', fl'⟩, hl, hf, rfl⟩ := threadStep_some h
      exact .inl ⟨i, c, sh', fl', hl, rfl, .hash hv hf, rfl⟩
    · cases h
  | writer i c =>
    obtain ⟨⟨sh', fl'⟩, hl, hf, rfl⟩ := threadStep_some h
    exact .inl ⟨i, c, sh', fl', hl, rfl, .writer hf, rfl⟩
  | main c => exact .inr ⟨mainStep_aside h, .inr ⟨c, h⟩⟩
  | deliver i bytes =>
    simp only [step] at h
    split at h
    · cases h
    · cases h; exact .inr ⟨.wire s i _ _, .inl rfl⟩
  | cut i keep => cases h; exact .inr ⟨.wire s i _ _, .inl rfl⟩

theorem step_cases {a : Act} (h : step cfg s a = some s') :
    (∃ i c sh' fl', Live cfg s i ∧ FlowStep cfg c s.sh (s.flow i) sh' fl' ∧ s' = s.put i (sh', fl')) ∨
      Aside s s' ∧ (s'.main = s.main ∨ ∃ c, mainStep cfg c s = some s') := by
  rcases step_faults h with ⟨i, c, sh', fl', hl, -, hf, he⟩ | ha
  · exact .inl ⟨i, c, sh', fl', hl, hf, he⟩
  · exact .inr ha

@[simp] theorem put_flow (s : State) (i : Nat) (x : Shared × Flow) : (s.put i x).flow i = x.2 := by simp [State.put]

theorem put_flow_ne (s : State) {i k : Nat} (x : Shared × Flow) (h : k ≠ i) : (s.put i x).flow k = s.flow k := by
  simp [State.put, Function.update_of_ne h]

/-- Only its own writer moves a flow's writer. -/
theorem step_writer {a : Act} (h : step cfg s a = some s') (i : Nat) : (s'.flow i).writer = (s.flow i).writer ∨
    ∃ c sh' fl', a = .writer i c ∧ (s.flow i).writerStep cfg c s.sh = some (sh', fl') ∧ s' = s.put i (sh', fl') := by
  have hother : ∀ {k} {x : Shared × Flow}, (k = i → x.2.writer = (s.flow i).writer) → s' = s.put k x →
      (s'.flow i).writer = (s.flow i).writer := by
    rintro k x hx rfl
    by_cases hk : i = k
    · subst hk; rw [put_flow]; exact hx rfl
    · rw [put_flow_ne _ _ hk]
  cases a with
  | net k c =>
    obtain ⟨⟨sh', fl'⟩, -, hf, he⟩ := threadStep_some h
    exact .inl (hother (fun hk => by subst hk; exact (netStep_writer hf).1) he)
  | hash k c =>
    simp only [step] at h
    split at h
    · obtain ⟨⟨sh', fl'⟩, -, hf, he⟩ := threadStep_some h
      obtain ⟨_, _, _, _, _, _, rfl⟩ := hashStep_only hf
      exact .inl (hother (fun hk => by subst hk; rfl) he)
    · cases h
  | writer k c =>
    obtain ⟨⟨sh', fl'⟩, -, hf, he⟩ := threadStep_some h
    by_cases hk : k = i
    · subst hk; exact .inr ⟨c, sh', fl', rfl, hf, he⟩
    · exact .inl (hother (fun hk' => absurd hk' hk) he)
  | main c => exact .inl ((mainStep_aside h).writer i)
  | deliver k bytes =>
    simp only [step] at h
    split at h
    · cases h
    · cases h; exact .inl ((Aside.wire s k _ _).writer i)
  | cut k keep => cases h; exact .inl ((Aside.wire s k _ _).writer i)

/-- Only its own net thread moves a flow's net thread. -/
theorem step_net {a : Act} (h : step cfg s a = some s') (i : Nat) : (s'.flow i).net = (s.flow i).net ∨ ∃ c, a = .net i c := by
  cases a with
  | net k c =>
    by_cases hk : i = k
    · subst hk; exact .inr ⟨c, rfl⟩
    · obtain ⟨x, -, -, rfl⟩ := threadStep_some h
      rw [put_flow_ne _ _ hk]; exact .inl rfl
  | hash k c =>
    simp only [step] at h
    split at h
    · obtain ⟨⟨sh', fl'⟩, -, hf, rfl⟩ := threadStep_some h
      by_cases hk : i = k
      · subst hk
        obtain ⟨_, _, _, _, _, _, rfl⟩ := hashStep_only hf
        rw [put_flow]; exact .inl rfl
      · rw [put_flow_ne _ _ hk]; exact .inl rfl
    · cases h
  | writer k c =>
    obtain ⟨⟨sh', fl'⟩, -, hf, rfl⟩ := threadStep_some h
    by_cases hk : i = k
    · subst hk
      obtain ⟨_, _, _, _, _, _, rfl⟩ := writerStep_only hf
      rw [put_flow]; exact .inl rfl
    · rw [put_flow_ne _ _ hk]; exact .inl rfl
  | main c => exact .inl ((mainStep_aside h).net i)
  | deliver k bytes =>
    simp only [step] at h
    split at h
    · cases h
    · cases h; exact .inl ((Aside.wire s k _ _).net i)
  | cut k keep => cases h; exact .inl ((Aside.wire s k _ _).net i)

/-! ## Runs -/

/-- What holds of a flow at first and is kept by its steps holds of it in every state. -/
theorem flow_invariant {ok : State → Act → State → Prop} {I : Flow → Prop} (h : Reach (step cfg) ok (.init cfg fs0) s)
    (h0 : I (.init cfg)) (hw : ∀ fl wire eof, I fl → I { fl with wire, eof })
    (hs : ∀ c sh fl sh' fl', FlowStep cfg c sh fl sh' fl' → I fl → I fl') (i : Nat) : I (s.flow i) := by
  refine h.invariant (I := fun s => ∀ i, I (s.flow i)) (fun _ => h0) ?_ i
  intro s a s' _ ih hst _ k
  rcases step_cases hst with ⟨i, c, sh', fl', -, hf, rfl⟩ | ⟨ha, -⟩
  · by_cases hk : k = i
    · subst hk; rw [put_flow]; exact hs _ _ _ _ _ hf (ih k)
    · rw [put_flow_ne _ _ hk]; exact ih k
  · obtain ⟨w, e, he⟩ := ha.flow k
    rw [he]; exact hw _ _ _ (ih k)

theorem FlowInv.wire (h : FlowInv cfg fl) (wire : Bytes) (eof : Bool) : FlowInv cfg { fl with wire, eof } :=
  ⟨⟨h.net.log, h.net.pc⟩, ⟨h.pipe.taken, h.pipe.fed, h.pipe.closed, h.pipe.direct, h.pipe.orphan, h.pipe.ended⟩,
    ⟨h.digest.reply, h.digest.finish⟩, h.writer, h.files, ⟨h.shut.writer, h.shut.hash⟩⟩

theorem flow_inv {ok : State → Act → State → Prop} (h : Reach (step cfg) ok (.init cfg fs0) s) (i : Nat) :
    FlowInv cfg (s.flow i) :=
  flow_invariant h (.init cfg) (fun _ _ _ hi => hi.wire _ _) (fun _ _ _ _ _ hf hi => hf.inv hi) i

/-- The logs of a session only grow. -/
theorem step_grows {a : Act} (h : step cfg s a = some s') (i : Nat) : (s.flow i).log.Grows (s'.flow i).log := by
  rcases step_cases h with ⟨k, c, sh', fl', -, hf, rfl⟩ | ⟨ha, -⟩
  · by_cases hk : i = k
    · subst hk; rw [put_flow]; exact hf.grows
    · rw [put_flow_ne _ _ hk]; exact .refl _
  · obtain ⟨w, e, he⟩ := ha.flow i
    rw [he]; exact .refl _

/-- A flow the session does not have does nothing. -/
theorem log_idle {ok : State → Act → State → Prop} (h : Reach (step cfg) ok (.init cfg fs0) s) {i : Nat}
    (hi : cfg.flows ≤ i) : (s.flow i).log = .init := by
  refine h.invariant (I := fun s => (s.flow i).log = .init) rfl ?_
  intro s a s' _ ih hst _
  rcases step_cases hst with ⟨k, c, sh', fl', hl, -, rfl⟩ | ⟨ha, -⟩
  · rw [put_flow_ne _ _ (by have := hl.2; omega)]; exact ih
  · rw [ha.log]; exact ih

theorem net_idle {ok : State → Act → State → Prop} (h : Reach (step cfg) ok (.init cfg fs0) s) {i : Nat}
    (hi : cfg.flows ≤ i) : (s.flow i).net = .openRoot := by
  refine h.invariant (I := fun s => (s.flow i).net = .openRoot) rfl ?_
  intro s a s' _ ih hst _
  rcases step_cases hst with ⟨k, c, sh', fl', hl, -, rfl⟩ | ⟨ha, -⟩
  · rw [put_flow_ne _ _ (by have := hl.2; omega)]; exact ih
  · rw [ha.net]; exact ih

/-- What holds of every flow's log can be seen at the flows the session has. -/
theorem forall_log {ok : State → Act → State → Prop} {P : Log → Prop} (h : Reach (step cfg) ok (.init cfg fs0) s)
    (h0 : P .init) (hk : ∀ i < cfg.flows, P (s.flow i).log) (i : Nat) : P (s.flow i).log := by
  by_cases hi : i < cfg.flows
  · exact hk i hi
  · rw [log_idle h (by omega)]; exact h0

/-- A flow whose threads can be joined has nothing left to read. -/
theorem result_net (h : (fl.result cfg).isSome) : ∃ r, fl.net = .finished r := by
  unfold Flow.result at h
  split at h
  · exact ⟨_, by assumption⟩
  · exact ⟨_, by assumption⟩
  · cases h

/-! ## Phases -/

/-- The flows' threads are not running yet. -/
def MainPc.early : MainPc → Prop
  | .running | .flushing _ | .acking | .returned _ => False
  | _ => True

/-- No thread of a flow has run: the manifest phase touches nothing. -/
structure Unstarted (cfg : Cfg) (fs0 : Fs) (s : State) : Prop where
  fs : s.sh.fs = fs0
  regs : s.sh.regs = []
  flow : ∀ i, ∃ wire eof, s.flow i = { Flow.init cfg with wire, eof }

/-- What is known of the flows at each point of `accept_one`. -/
def PhaseOk (cfg : Cfg) (fs0 : Fs) (s : State) : MainPc → Prop
  | .running => True
  | .flushing _ | .acking | .returned (.ok _) => ∀ i < cfg.flows, (s.flow i).result cfg = some (.ok ())
  | .returned (.error _) => Unstarted cfg fs0 s ∨ ∀ i < cfg.flows, ((s.flow i).result cfg).isSome
  | _ => Unstarted cfg fs0 s

theorem PhaseOk.of_early {pc : MainPc} (h : pc.early) (hu : Unstarted cfg fs0 s) : PhaseOk cfg fs0 s pc := by
  cases pc <;> first | exact h.elim | exact hu

theorem PhaseOk.early {pc : MainPc} (h : pc.early) (hu : PhaseOk cfg fs0 s pc) : Unstarted cfg fs0 s := by
  cases pc <;> first | exact h.elim | exact hu

theorem Unstarted.aside (h : Unstarted cfg fs0 s) (ha : Aside s s') : Unstarted cfg fs0 s' := by
  refine ⟨ha.fs.trans h.fs, ha.regs.trans h.regs, fun i => ?_⟩
  obtain ⟨w, e, he⟩ := h.flow i
  obtain ⟨w', e', he'⟩ := ha.flow i
  exact ⟨w', e', by rw [he', he]⟩

theorem Aside.result (h : Aside s s') (i : Nat) : (s'.flow i).result cfg = (s.flow i).result cfg := by
  obtain ⟨w, e, he⟩ := h.flow i
  rw [he]
  rfl

theorem PhaseOk.aside {pc : MainPc} (h : PhaseOk cfg fs0 s pc) (ha : Aside s s') : PhaseOk cfg fs0 s' pc := by
  by_cases he : pc.early
  · exact .of_early he ((h.early he).aside ha)
  · cases pc with
    | running => trivial
    | flushing | acking => exact fun i hi => (ha.result i).trans (h i hi)
    | returned r =>
      cases r with
      | ok st => exact fun i hi => (ha.result i).trans (h i hi)
      | error e => exact h.imp (·.aside ha) fun hr i hi => by rw [ha.result i]; exact hr i hi
    | _ => exact absurd trivial he

theorem held_main (s : State) (e : Entry) : (s.held e).main.early := by
  unfold State.held
  split
  · trivial
  · split
    · split <;> trivial
    · trivial

/-- An early phase goes on, starts the flows or fails. -/
theorem mainStep_early (h : mainStep cfg c s = some s') (he : s.main.early) :
    s'.main.early ∨ s'.main = .running ∨ ∃ e, s'.main = .returned (.error e) := by
  unfold mainStep at h
  split at h
  case h_1 => split at h <;> cases h; exacts [.inr (.inr ⟨_, rfl⟩), .inl trivial]
  case h_2 hm =>
    split at h
    · cases h; exact .inr (.inr ⟨_, rfl⟩)
    · split at h <;> cases h; exact .inr (.inr ⟨_, rfl⟩)
    · cases h; exact .inr (.inr ⟨_, rfl⟩)
    · cases h; exact .inl trivial
    · cases h
      split
      · exact .inl (held_main _ _)
      · left; unfold State.consume; dsimp only; rw [hm]; trivial
  case h_3 => split at h <;> cases h <;> exact .inl trivial
  case h_4 => split at h <;> cases h <;> exact .inl trivial
  case h_5 => split at h <;> cases h <;> exact .inl trivial
  case h_6 =>
    split at h
    · cases h; exact .inr (.inr ⟨_, rfl⟩)
    · cases h
      unfold State.goto
      dsimp only
      split
      · exact .inr (.inl rfl)
      · exact .inl trivial
  case h_7 => split at h <;> cases h; exacts [.inr (.inr ⟨_, rfl⟩), .inr (.inl rfl)]
  case h_12 => cases h
  all_goals
    rename_i hm
    rw [hm] at he
    exact he.elim

theorem firstError_none (h : firstError cfg s = none) (hs : ∀ i < cfg.flows, ((s.flow i).result cfg).isSome) :
    ∀ i < cfg.flows, (s.flow i).result cfg = some (.ok ()) := by
  intro i hi
  unfold firstError at h
  have hn := List.findSome?_eq_none_iff.1 h i (List.mem_range.2 hi)
  obtain ⟨r, hr⟩ := Option.isSome_iff_exists.1 (hs i hi)
  rw [hr] at hn ⊢
  cases r with
  | ok u => rfl
  | error e => cases hn

theorem mainStep_phase (h : mainStep cfg c s = some s') (hp : PhaseOk cfg fs0 s s.main) : PhaseOk cfg fs0 s' s'.main := by
  have ha := mainStep_aside h
  by_cases he : s.main.early
  · have hu := (hp.early he).aside ha
    rcases mainStep_early h he with h' | h' | ⟨e, h'⟩
    · exact .of_early h' hu
    · rw [h']; trivial
    · rw [h']; exact .inl hu
  · have hp' := hp.aside ha
    unfold mainStep at h
    split at h
    case h_8 =>
      split at h
      · rename_i hs
        split at h
        · cases h; exact .inr hs
        · rename_i hf
          cases h
          exact firstError_none hf hs
      · cases h
    case h_9 hm =>
      rw [hm] at hp'
      split at h <;> cases h
      · exact hp'
      · exact .inr fun i hi => by rw [hp' i hi]; rfl
    case h_10 hm => rw [hm] at hp'; cases h; exact hp'
    case h_11 hm =>
      rw [hm] at hp'
      split at h <;> cases h
      · exact .inr fun i hi => by rw [hp' i hi]; rfl
      · exact hp'
    case h_12 => cases h
    all_goals
      rename_i hm
      rw [hm] at he
      exact absurd trivial he

theorem phase_ok {ok : State → Act → State → Prop} (h : Reach (step cfg) ok (.init cfg fs0) s) :
    PhaseOk cfg fs0 s s.main := by
  refine h.invariant (I := fun s => PhaseOk cfg fs0 s s.main) ⟨rfl, rfl, fun _ => ⟨_, _, rfl⟩⟩ ?_
  intro s a s' _ ih hst _
  rcases step_cases hst with ⟨i, c, sh', fl', hl, -, rfl⟩ | ⟨ha, hm | ⟨c, hm⟩⟩
  · rw [show (s.put i (sh', fl')).main = .running from hl.1]; trivial
  · rw [hm]; exact ih.aside ha
  · exact mainStep_phase hm ih

end Thunderflash.Recv
