/-
The permission bits and mtime of a finished file: `fchmod` is skipped when the entry's own owner
bits allow writing, and then what the file was opened with is what it keeps.
-/
import Thunderflash.Recv.Atomic

namespace Thunderflash.Recv

open Codec Posix Fs Lts

variable {cfg : Cfg} {c : Choice} {sh sh' : Shared} {fl fl' : Flow} {s s' s0 : State} {fs0 : Fs} {t u : InFlight} {j : Job}
  {i : Nat}

def WriterPc.chmods : WriterPc → Option InFlight
  | .chmod t => some t
  | _ => none

theorem chmods_eq {w : WriterPc} : w.chmods = some t ↔ w = .chmod t := by
  cases w <;> simp [WriterPc.chmods]

/-- The step is taken while nobody else is about to change the mode of flow `i`'s file `t`, and its
own `fchmod` does what it is asked to. -/
def Undisturbed (cfg : Cfg) (i : Nat) (t : InFlight) (s : State) (a : Act) (_ : State) : Prop :=
  (∀ k < cfg.flows, ∀ u ∈ (s.flow k).writer.chmods, u.file = t.file → k = i ∧ u = t) ∧
    match a with
    | .writer k c => k = i → (s.flow i).writer.chmods = some t → c.fault = none
    | _ => True

instance (cfg : Cfg) (i : Nat) (t : InFlight) (s : State) (a : Act) (s' : State) : Decidable (Undisturbed cfg i t s a s') := by
  unfold Undisturbed
  cases a <;> infer_instance

/-- The mode a file has once it is open: a new one that of its creation, an old one its own. -/
def openedMode (cfg : Cfg) (s : State) (t : InFlight) : Option UInt32 :=
  if t.file < s.sh.fs.inodes.length then s.sh.fs.mode t.file
  else some ((t.mode ||| 0o600) &&& 0o7777 &&& ~~~cfg.umask)

/-- Flow `i` opens `t` for entry `j` in state `s0`, and its writer stamps it in the step to `s`. -/
structure Finishes (cfg : Cfg) (fs0 : Fs) (i : Nat) (j : Job) (t : InFlight) (s0 s : State) : Prop where
  start : Reachable cfg fs0 s0
  net : ∃ st, (s0.flow i).net = .at j st
  fresh : t ∉ (s0.flow i).tokens
  run : ∃ c s1 s2 c', step cfg s0 (.net i c) = some s1 ∧ (s1.flow i).log.born = (s0.flow i).log.born ++ [t] ∧
    Reach (step cfg) (Undisturbed cfg i t) s1 s2 ∧ (s2.flow i).writer = .stamp t ∧ c'.fault = none ∧
    step cfg s2 (.writer i c') = some s

theorem Opens.job (h : Opens cfg c sh fl sh' t) {st : Stage} (hn : fl.net = .at j st) :
    t.mode = j.entry.mode ∧ t.mtime = j.entry.mtime := by
  cases h with
  | draw hn' ht | place hn' ht | reuse hn' ht =>
    rw [hn] at hn'
    cases hn'
    subst ht
    exact ⟨rfl, rfl⟩

theorem Opens.mode (h : Opens cfg c s.sh fl sh' t) : sh'.fs.mode t.file = openedMode cfg s t := by
  unfold openedMode
  cases h with
  | draw _ ht hc | place _ ht hc =>
    subst ht
    rw [hc.mode]
    simp [Flow.scratchFile, Flow.placedFile]
  | @reuse j _ r _ _ ht _ hl he =>
    subst ht
    change sh'.fs.mode r = if r < s.sh.fs.inodes.length then s.sh.fs.mode r else _
    rw [he, if_pos (lt_of_leaf hl), mode_update, if_pos rfl]
    unfold Fs.mode
    cases s.sh.fs.inodes[r]? <;> rfl

/-- The writer is at neither of the two stages that set a file's mode and times. -/
def WriterPc.tidy : WriterPc → Prop
  | .chmod _ | .stamp _ => False
  | _ => True

theorem dropMsg_writer (c : Choice) (m : Msg) (sh : Shared) (fl : Flow) : (fl.dropMsg cfg c m sh).2.writer = fl.writer := by
  unfold Flow.dropMsg
  split <;> rfl

theorem handle_stamps (current : Option Cursor) (m : Msg) (sh : Shared) (fl : Flow) (hr : fl.writer = .recv current) :
    ((fl.handle current m sh).2.writer = .stamp t → t.mode &&& 0o600 = 0o600) ∧
      ((fl.handle current m sh).2.writer = .chmod t → t.mode &&& 0o600 ≠ 0o600) := by
  unfold Flow.handle
  split <;> try (simp [hr]; done)
  dsimp only
  split
  · rename_i h
    exact ⟨fun he => (by cases he), fun he => (by cases he; exact h)⟩
  · rename_i h
    exact ⟨fun he => (by cases he; exact not_not.1 h), fun he => (by cases he)⟩

theorem settle_tidy (u : InFlight) (fl : Flow) : (fl.settle u).writer.tidy := by
  rcases settle_cases u fl with ⟨final, -, he⟩ | ⟨-, he⟩ <;> rw [he] <;> trivial

/-- How the writer comes to stamp a file, or to change its mode. -/
theorem writerStep_stamps (h : fl.writerStep cfg c sh = some (sh', fl')) :
    (fl'.writer = .stamp t →
      (fl.writer = .chmod t ∧ sh' = (call cfg c sh (.fchmod t.file (t.mode &&& 0o777))).1) ∨ t.mode &&& 0o600 = 0o600) ∧
    (fl'.writer = .chmod t → t.mode &&& 0o600 ≠ 0o600) := by
  have hnot : fl'.writer.tidy → (fl'.writer = .stamp t →
      (fl.writer = .chmod t ∧ sh' = (call cfg c sh (.fchmod t.file (t.mode &&& 0o777))).1) ∨ t.mode &&& 0o600 = 0o600) ∧
      (fl'.writer = .chmod t → t.mode &&& 0o600 ≠ 0o600) :=
    fun hw => ⟨fun he => by (rw [he] at hw; exact hw.elim), fun he => by (rw [he] at hw; exact hw.elim)⟩
  unfold Flow.writerStep at h
  split at h
  case h_1 hr =>
    split at h
    · rename_i m q hq
      obtain rfl := congrArg Prod.snd (Option.some.inj h)
      obtain ⟨h1, h2⟩ := handle_stamps (t := t) _ m sh
        { fl with wq := q, log := { fl.log with taken := fl.log.taken ++ [m] } } hr
      exact ⟨fun he => .inr (h1 he), h2⟩
    all_goals
      split at h <;> cases h
      exact hnot trivial
  case h_3 =>
    split at h
    · cases h; exact hnot trivial
    · split at h
      · split at h <;> cases h <;> exact hnot trivial
      · cases h
  case h_4 u hw =>
    cases h
    exact ⟨fun he => (by cases he; exact .inl ⟨hw, rfl⟩), fun he => (by cases he)⟩
  case h_5 =>
    obtain rfl := congrArg Prod.snd (Option.some.inj h)
    refine hnot ?_
    dsimp only
    split
    · trivial
    · exact settle_tidy _ _
  case h_6 =>
    split at h <;> cases h
    · exact hnot (settle_tidy _ _)
    · exact hnot trivial
  case h_7 =>
    split at h <;> cases h
    · refine hnot ?_
      dsimp only
      split <;> trivial
    · exact hnot trivial
  case h_8 => split at h <;> cases h <;> exact hnot trivial
  case h_12 =>
    obtain rfl := congrArg Prod.snd (Option.some.inj h)
    refine hnot ?_
    rw [dropMsg_writer]
    trivial
  case h_13 => cases h
  all_goals
    obtain rfl := congrArg Prod.snd (Option.some.inj h)
    exact hnot trivial

/-- What is known of the mode of `t` while its writer gets to it: `m` is what it was opened with. -/
structure Moded (i : Nat) (t : InFlight) (m : Option UInt32) (s : State) : Prop where
  file : ∃ b, s.sh.fs.leaf t.file = some (.file b)
  kept : t.mode &&& 0o600 = 0o600 → s.sh.fs.mode t.file = m
  changed : (s.flow i).writer = .stamp t → t.mode &&& 0o600 ≠ 0o600 → s.sh.fs.mode t.file = some (t.mode &&& 0o777)
  changes : (s.flow i).writer = .chmod t → t.mode &&& 0o600 ≠ 0o600

theorem call_fchmod {m : UInt32} (hf : c.fault = none) (hi : i < sh.fs.inodes.length) :
    (call cfg c sh (.fchmod i m)).1.fs.mode i = some m := by
  simp only [call, hf, Fs.exec, hi, if_true]
  rw [mode_update, if_pos rfl]
  simp [hi]

theorem call_futimens {m : Int64} (hf : c.fault = none) (hi : i < sh.fs.inodes.length) :
    (call cfg c sh (.futimens i m)).1.fs.mode i = sh.fs.mode i ∧ (call cfg c sh (.futimens i m)).1.fs.mtime i = some m := by
  simp only [call, hf, Fs.exec, hi, if_true]
  rw [mode_update, mtime_update, if_pos rfl, if_pos rfl]
  exact ⟨by unfold Fs.mode; cases sh.fs.inodes[i]? <;> rfl, by simp [hi]⟩

theorem Moded.step {m : Option UInt32} {a : Act} (h : Moded i t m s) (hu : Undisturbed cfg i t s a s')
    (hs : step cfg s a = some s') : Moded i t m s' := by
  obtain ⟨b, hb⟩ := h.file
  have hlt := lt_of_leaf hb
  have hfile : ∃ b, s'.sh.fs.leaf t.file = some (.file b) := by
    rcases step_cases hs with ⟨k, c, sh', fl', -, hf, rfl⟩ | ⟨ha, -⟩
    · exact hf.effect.file hb
    · rw [ha.fs]; exact ⟨b, hb⟩
  have hmode : s'.sh.fs.mode t.file = s.sh.fs.mode t.file ∨ (s.flow i).writer = .chmod t := by
    rcases step_cases hs with ⟨k, c, sh', fl', hl, hf, rfl⟩ | ⟨ha, -⟩
    · rcases hf.effect.mode hlt with he | ⟨u, hw, hu', -⟩
      · exact .inl he
      · obtain ⟨rfl, rfl⟩ := hu.1 k hl.2 u (chmods_eq.2 hw) hu'
        exact .inr hw
    · rw [ha.fs]; exact .inl rfl
  refine ⟨hfile, fun hm => ?_, fun hw hm => ?_, fun hw => ?_⟩
  · rcases hmode with he | hc
    · rw [he]; exact h.kept hm
    · exact absurd hm (h.changes hc)
  · rcases step_writer hs i with he | ⟨c, sh', fl', rfl, hst, rfl⟩
    · rw [he] at hw
      rcases hmode with hmode | hc
      · rw [hmode]; exact h.changed hw hm
      · rw [hw] at hc; cases hc
    · rw [put_flow] at hw
      rcases (writerStep_stamps hst).1 hw with ⟨hc, rfl⟩ | hm'
      · exact call_fchmod (hu.2 rfl (chmods_eq.2 hc)) hlt
      · exact absurd hm' hm
  · rcases step_writer hs i with he | ⟨c, sh', fl', rfl, hst, rfl⟩
    · rw [he] at hw; exact h.changes hw
    · rw [put_flow] at hw
      exact (writerStep_stamps hst).2 hw

/-- An empty file named `a` with this mode. -/
def modeJob (m : UInt32) : Job := ⟨⟨.file, pathA, 0, m, 5⟩, [], [97], 0⟩

def modeFile (m : UInt32) : InFlight := ⟨1, 0, scratchName [97] 0, some [97], 5, m, []⟩

/-- A run in which it is opened and finished, under umask 022, ends with mode `r`. -/
def finishRun (m r : UInt32) : Bool :=
  (run (step single) (.init single rootOnly)
      (List.flatten [opening single, [.deliver 0 (modeJob m).entry.encode], netRuns 0 3])).any fun s0 =>
    (step single s0 (.net 0 plain)).any fun s1 =>
    (runIf (step single) (fun s a s' => decide (Undisturbed single 0 (modeFile m) s a s')) s1
      (netRuns 0 2 ++ writerRuns 0 2)).any fun s2 =>
    (step single s2 (.writer 0 plain)).any fun s =>
      decide ((s0.flow 0).net = .at (modeJob m) (.tempCreate 3) ∧ modeFile m ∉ (s0.flow 0).tokens ∧
        (s1.flow 0).log.born = (s0.flow 0).log.born ++ [modeFile m] ∧ (s2.flow 0).writer = .stamp (modeFile m) ∧
        s.sh.fs.mode 1 = some r)

theorem finishes_of_run {m r : UInt32} (h : finishRun m r = true) :
    ∃ s0 s, Finishes single rootOnly 0 (modeJob m) (modeFile m) s0 s ∧ s.sh.fs.mode 1 = some r := by
  obtain ⟨s0, h0, h⟩ := (Option.any_eq_true _ _).1 h
  obtain ⟨s1, h1, h⟩ := (Option.any_eq_true _ _).1 h
  obtain ⟨s2, h2, h⟩ := (Option.any_eq_true _ _).1 h
  obtain ⟨s, hs, h⟩ := (Option.any_eq_true _ _).1 h
  obtain ⟨hn, hf, hb, hw, hm⟩ := of_decide_eq_true h
  exact ⟨s0, s, ⟨.of_run h0, ⟨_, hn⟩, hf, plain, s1, s2, plain, h1, hb,
    .of_runIf (fun _ _ _ hu => of_decide_eq_true hu) h2, hw, rfl, hs⟩, hm⟩

end Thunderflash.Recv
