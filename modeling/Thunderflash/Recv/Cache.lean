/-
The parent cache: the directory it returns for a component list is the one a fresh walk of the list
reaches, at any moment of a session, because no step of a flow ever moves or removes a directory.
-/
import Thunderflash.Recv.Manifest
import Thunderflash.Recv.Atomic

namespace Thunderflash.Recv

open Codec Posix Fs Lts

variable {cfg : Cfg} {s s' : State} {fs fs0 : Fs} {c : Choice} {H : Nat → List Name → Prop}

/-! ## The fresh walk -/

/-- `open_dir_chain`, all at once: every component opened without following a link. -/
def openDirChain (fs : Fs) (root : Nat) (components : List Name) : Except Errno Nat :=
  components.foldlM (fun current component => (fs.exec 0 0 (.openDir current component)).map Prod.snd) root

/-- Every name of the list fits into a directory. -/
def Fits (_ : Nat) (ps : List Name) : Prop := ∀ n ∈ ps, n.length ≤ NAME_MAX

theorem Fits.snoc {d i : Nat} {n : Name} {ps : List Name} (h : Fits d ps) (hn : n.length ≤ NAME_MAX) :
    Fits i (ps ++ [n]) := by
  intro m hm
  rcases List.mem_append.1 hm with hm | hm
  · exact h m hm
  · rw [List.mem_singleton.1 hm]
    exact hn

theorem exec_openDir_ok {d i : Nat} {n : Name} (hn : n.length ≤ NAME_MAX) (he : fs.entry d n = some i)
    (hl : fs.leaf i = some .dir) : fs.exec 0 0 (.openDir d n) = .ok (fs, i) := by
  have hc : fs.checkAt d n = .ok () := by
    unfold checkAt
    rw [if_neg (by omega), if_pos (dir_of_entry he)]
  simp only [exec, hc, he, hl]
  rfl

/-- A path that leads to a directory can be walked to it. -/
theorem Handle.chain {root : Nat} : ∀ {ps : List Name} {start d : Nat}, Posix.resolve fs.entry start ps = some d →
    fs.leaf d = some .dir → Fits root ps → openDirChain fs start ps = .ok d
  | [], start, d, hr, _, _ => by cases hr; rfl
  | n :: ps, start, d, hr, hd, hs => by
    obtain ⟨i, hi, hr⟩ := Option.bind_eq_some_iff.1 hr
    have hdir : fs.leaf i = some .dir := by
      cases ps with
      | nil => cases hr; exact hd
      | cons m ps =>
        obtain ⟨k, hk, -⟩ := Option.bind_eq_some_iff.1 hr
        exact dir_of_entry hk
    unfold openDirChain
    rw [List.foldlM_cons, exec_openDir_ok (hs n (List.mem_cons_self ..)) hi hdir]
    have hs' : Fits root ps := fun m hm => hs m (List.mem_cons_of_mem _ hm)
    exact Handle.chain hr hd hs'

/-! ## The manifest's cache -/

/-- The directory the thread that answers the manifest holds is the one at the path it stands for. -/
def MainPc.placed (H : Nat → List Name → Prop) : MainPc → Prop
  | .chainRoot e parents name => sanitize e.path.bytes = .ok (parents ++ [name])
  | .chain e name dir done component todo =>
    H dir done ∧ sanitize e.path.bytes = .ok (done ++ component :: todo ++ [name])
  | .stat e name dir => ∃ ps, H dir ps ∧ sanitize e.path.bytes = .ok (ps ++ [name])
  | _ => True

structure Answering (H : Nat → List Name → Prop) (s : State) : Prop where
  main : s.main.placed H
  cache : ∀ ps d, s.cache = some (ps, d) → H d ps

theorem Answering.arrive {e : Entry} {parents : List Name} {name : Name} {dir : Nat} (hd : H dir parents)
    (hs : sanitize e.path.bytes = .ok (parents ++ [name])) : Answering H (s.arrive e parents name dir) := by
  refine ⟨⟨parents, hd, hs⟩, fun ps d h => ?_⟩
  obtain ⟨rfl, rfl⟩ := Prod.mk.inj (Option.some.inj h)
  exact hd

theorem Answering.held {e : Entry} (h : Answering H s) : Answering H (s.held e) := by
  unfold State.held
  split
  · exact ⟨trivial, h.cache⟩
  · rename_i comps hs
    have hsplit : sanitize e.path.bytes = .ok (comps.dropLast ++ [comps.getLastD []]) := by
      have hne := (sanitize_ok hs).1
      rw [hs, List.getLastD_eq_getLast?, List.getLast?_eq_some_getLast hne, Option.getD_some,
        List.dropLast_concat_getLast]
    split
    · rename_i ps d hc
      split
      · rename_i heq
        subst heq
        exact ⟨⟨comps.dropLast, h.cache _ _ hc, hsplit⟩, h.cache⟩
      · exact ⟨hsplit, h.cache⟩
    · exact ⟨hsplit, h.cache⟩

theorem Answering.mainStep (h : Answering H s) (hroot : H cfg.root [])
    (hopen : ∀ d n i ps, s.main.early → n.length ≤ NAME_MAX → s.sh.fs.entry d n = some i → s.sh.fs.leaf i = some .dir →
      H d ps → H i (ps ++ [n])) (hs : mainStep cfg c s = some s') : Answering H s' := by
  have hm := h.main
  unfold Recv.mainStep at hs
  split at hs
  case h_1 => split at hs <;> cases hs <;> exact ⟨trivial, h.cache⟩
  case h_2 =>
    split at hs
    · cases hs; exact ⟨trivial, h.cache⟩
    · split at hs <;> cases hs
      exact ⟨trivial, h.cache⟩
    · cases hs; exact ⟨trivial, h.cache⟩
    · cases hs; exact ⟨trivial, h.cache⟩
    · rename_i e rest _ _
      have hc : Answering H (s.consume rest) := ⟨hm, h.cache⟩
      cases hs
      split
      · exact hc.held
      · exact hc
  case h_3 e parents name hpc =>
    rw [hpc] at hm
    split at hs <;> cases hs
    · exact ⟨trivial, h.cache⟩
    · exact .arrive hroot hm
    · exact ⟨⟨hroot, hm⟩, h.cache⟩
  case h_4 e name dir done component todo hpc =>
    have hearly : s.main.early := by rw [hpc]; trivial
    rw [hpc] at hm
    have hopened : ∀ {sh d}, call cfg c s.sh (.openDir dir component) = (sh, .ok d) → H d (done ++ [component]) := by
      intro sh d hcall
      obtain ⟨-, hlen, he, hl⟩ := exec_openDir (call_ok (congrArg Prod.snd hcall)).2.exec
      exact hopen dir component d done hearly hlen he hl hm.1
    split at hs <;> cases hs
    · rename_i hcall
      exact .arrive (hopened hcall) (by simpa using hm.2)
    · rename_i hcall
      exact ⟨⟨hopened hcall, by simpa using hm.2⟩, h.cache⟩
    · exact ⟨trivial, h.cache⟩
  case h_5 =>
    split at hs <;> cases hs <;> exact ⟨trivial, h.cache⟩
  case h_6 =>
    split at hs
    · cases hs; exact ⟨trivial, h.cache⟩
    · cases hs
      refine ⟨?_, h.cache⟩
      show MainPc.placed H (if cfg.flows = 1 then .running else .pairing)
      split <;> trivial
  case h_7 => split at hs <;> cases hs <;> exact ⟨trivial, h.cache⟩
  case h_8 =>
    split at hs
    · split at hs <;> cases hs <;> exact ⟨trivial, h.cache⟩
    · cases hs
  case h_9 => split at hs <;> cases hs <;> exact ⟨trivial, h.cache⟩
  case h_10 => cases hs; exact ⟨trivial, h.cache⟩
  case h_11 => split at hs <;> cases hs <;> exact ⟨trivial, h.cache⟩
  case h_12 => cases hs

/-- The manifest is answered on the destination as it was. -/
theorem answering_inv {ok : State → Act → State → Prop} (ht : fs0.DirTree cfg.root)
    (h : Reach (step cfg) ok (.init cfg fs0) s) :
    Answering (fun d ps => Handle fs0 cfg.root d ps ∧ Fits d ps) s := by
  refine h.invariant ⟨trivial, nofun⟩ ?_
  intro s a s' hr ih hst _
  rcases step_told hst with hu | ⟨c, -, hs⟩
  · exact ⟨by rw [hu.main]; exact ih.main, by rw [hu.cache]; exact ih.cache⟩
  · refine ih.mainStep ⟨.nil ht, nofun⟩ (fun d n i ps he hlen hn hl hp => ?_) hs
    rw [((phase_ok hr).early he).fs] at hn hl
    exact ⟨hp.1.snoc hn hl, hp.2.snoc hlen⟩

/-! ## The flows' caches -/

theorem fits_inv {ok : State → Act → State → Prop} (h : Reach (step cfg) ok (.init cfg fs0) s) (i : Nat) :
    Placed Fits (s.flow i) := by
  refine (flow_invariant (I := fun fl => FlowInv cfg fl ∧ Placed Fits fl) h ⟨.init cfg, .init⟩ ?_ ?_ i).2
  · exact fun fl wire eof ⟨hi, hp⟩ => ⟨hi.wire _ _, hp.net, hp.cache, hp.born⟩
  · rintro c sh fl sh' fl' hf ⟨hi, hp⟩
    exact ⟨hf.inv hi, hf.placed hi hp nofun fun d n i ps hlen _ _ hps => hps.snoc hlen⟩

/-- The parent's directory has been found. -/
def Stage.arrived : Stage → Prop
  | .walkRoot | .walkMk .. | .walkOpen .. => False
  | _ => True

theorem placed_arrived {j : Job} {st : Stage} (h : (NetPc.at j st).placed H) (ha : st.arrived) : H j.dir j.parents := by
  cases st <;> first | exact ha.elim | exact h

/-- Every directory a cache holds or has returned is the one a fresh walk reaches now. -/
structure Fresh (cfg : Cfg) (s : State) : Prop where
  cached : ∀ i ps d, (s.flow i).cache = some (ps, d) → openDirChain s.sh.fs cfg.root ps = .ok d
  returned : ∀ i j st, (s.flow i).net = .at j st → st.arrived → openDirChain s.sh.fs cfg.root j.parents = .ok j.dir
  answering : ∀ ps d, s.cache = some (ps, d) → openDirChain s.sh.fs cfg.root ps = .ok d
  asked : ∀ e name dir, s.main = .stat e name dir →
    ∃ ps, sanitize e.path.bytes = .ok (ps ++ [name]) ∧ openDirChain s.sh.fs cfg.root ps = .ok dir

/-- In every state of every session, after whatever lookups and failures, the parent caches agree with
a fresh walk, as long as the scratch names drawn are new. -/
theorem cache_fresh (ht : fs0.DirTree cfg.root) (h : Reachable cfg fs0 s) (hd : Drawn s) : Fresh cfg s := by
  have hdisk := disk_inv ht h hd
  have hmain := answering_inv ht h
  have hold : ∀ {d ps}, Handle fs0 cfg.root d ps ∧ Fits d ps → openDirChain s.sh.fs cfg.root ps = .ok d := by
    rintro d ps ⟨hp, hs⟩
    have hkept := hp.mono hdisk.dirs
    exact Handle.chain hkept.path hkept.dir hs
  have hnew : ∀ {d ps}, Handle s.sh.fs cfg.root d ps → Fits d ps → openDirChain s.sh.fs cfg.root ps = .ok d :=
    fun hp hs => Handle.chain hp.path hp.dir hs
  refine ⟨fun i ps d hc => ?_, fun i j st hj ha => ?_, fun ps d hc => hold (hmain.cache ps d hc), fun e name dir hm => ?_⟩
  · exact hnew ((hdisk.placed i).cache ps d hc) ((fits_inv h i).cache ps d hc)
  · have hp := (hdisk.placed i).net
    have hs := (fits_inv h i).net
    rw [hj] at hp hs
    exact hnew (placed_arrived hp ha) (placed_arrived hs ha)
  · have hp := hmain.main
    rw [hm] at hp
    obtain ⟨ps, hps, hsan⟩ := hp
    exact ⟨ps, hsan, hold hps⟩

/-- A directory inside another arrives. -/
def nested : List Act := List.flatten [opening single,
  [.deliver 0 (entryOf .dir pathAB 0).encode], netRuns 0 7]

theorem cache_fresh_nested : ∃ s, Reachable single rootOnly s ∧ (s.flow 0).cache = some ([[97]], 1) ∧
    openDirChain s.sh.fs single.root [[97]] = .ok 1 := by
  have hrun : ((run (step single) (.init single rootOnly) nested).any fun s =>
      decide ((s.flow 0).cache = some ([[97]], 1) ∧ (s.flow 0).log.scratches = [])) = true := by decide +kernel
  obtain ⟨s, hs, hv⟩ := (Option.any_eq_true _ _).1 hrun
  obtain ⟨hc, hnone⟩ := of_decide_eq_true hv
  have hr : Reachable single rootOnly s := .of_run hs
  have hnames := forall_log (P := fun l => l.scratches = []) hr rfl fun i hi => by
    obtain rfl : i = 0 := by simpa [single] using hi
    exact hnone
  have hd : Drawn s := by
    refine ⟨fun {i k t x} ht _ => ?_, fun i => by simp [hnames], fun {i k x} hx _ => by simp [hnames] at hx⟩
    rw [hnames] at ht; cases ht
  exact ⟨s, hr, hc, (cache_fresh (.of_flat rfl (by decide +kernel)) hr hd).cached 0 _ _ hc⟩

/-! ## Both assumptions are needed -/

def triple : Cfg := { single with flows := 3 }

def quadruple : Cfg := { double with flows := 4 }

/-- The scratch name of a file at `a`, as an entry's path, and two paths below it. -/
def pathScratch : Str := ⟨scratchName [97] 0, by decide +kernel⟩

def pathFirst : Str := ⟨scratchName [97] 0 ++ [47, 120], by decide +kernel⟩

def pathSecond : Str := ⟨scratchName [97] 0 ++ [47, 121], by decide +kernel⟩

/-- A link that cannot be made: its target is a NUL. -/
def unmade (path : Str) : Bytes := (entryOf .symlink path 1).encode ++ [0]

/-- Flow 0 writes `a` under a scratch name that flow 1 removes for a link it cannot make; flow 2 makes
a directory there and something in it, flow 0 renames the directory, and flow 2 goes on in it. -/
def stolen : List Act := List.flatten [opening triple,
  [.deliver 0 (encodeAll [fileFrame pathA [8]]), .deliver 1 (unmade pathScratch),
    .deliver 2 ((entryOf .dir pathScratch 0).encode ++ (entryOf .dir pathFirst 0).encode ++
      (entryOf .dir pathSecond 0).encode)],
  netRuns 0 9, netRuns 1 6, netRuns 2 11, writerRuns 0 7, netRuns 2 1]

/-- Flow 0 commits `a` and fails to register the directory, flow 1 draws the scratch name again, flow
0's drop removes it; flow 3 makes a directory there, and flow 1 renames it. -/
def dropped : List Act := List.flatten [opening quadruple,
  [.deliver 0 (encodeAll [fileFrame pathA [8]]), .deliver 1 (encodeAll [fileFrame pathA [9]]),
    .deliver 2 (unmade pathA), .deliver 3 ((entryOf .dir pathFirst 0).encode ++ (entryOf .dir pathSecond 0).encode)],
  netRuns 0 10, writerRuns 0 8, netRuns 1 10, [.writer 0 { plain with fault := some Fault.EIO }], writerRuns 0 1,
  netRuns 3 9, netRuns 2 7, writerRuns 1 8, netRuns 3 1]

/-- Flow `i` is about to make a directory whose parent, says its cache, is `d`, and a walk finds nothing. -/
structure Stale (cfg : Cfg) (i d : Nat) (s : State) : Prop where
  net : (s.flow i).net = .at ⟨entryOf .dir pathSecond 0, [scratchName [97] 0], [121], d⟩ .dirMk
  walk : openDirChain s.sh.fs cfg.root [scratchName [97] 0] = .error .ENOENT

theorem Stale.not_fresh {i d : Nat} (h : Stale cfg i d s) : ¬ Fresh cfg s := by
  intro hf
  have hok := hf.returned i _ _ h.net trivial
  rw [h.walk] at hok
  cases hok

theorem stale_stolen : ∃ s, Reachable triple rootOnly s ∧
    Distinct (fun i => (s.flow i).log.scratches.map fun t => (t.parent, t.name)) ∧ Stale triple 2 2 s := by
  have hrun : ((run (step triple) (.init triple rootOnly) stolen).any fun s =>
      decide (((List.range triple.flows).flatMap fun i => (s.flow i).log.scratches.map fun t => (t.parent, t.name)).Nodup ∧
        (s.flow 2).net = .at ⟨entryOf .dir pathSecond 0, [scratchName [97] 0], [121], 2⟩ .dirMk ∧
        openDirChain s.sh.fs triple.root [scratchName [97] 0] = .error .ENOENT)) = true := by decide +kernel
  obtain ⟨s, hs, hv⟩ := (Option.any_eq_true _ _).1 hrun
  obtain ⟨hd, hnet, hwalk⟩ := of_decide_eq_true hv
  have hr : Reachable triple rootOnly s := .of_run hs
  exact ⟨s, hr, .of_range (fun i hi => by rw [log_idle hr hi]; rfl) hd, hnet, hwalk⟩

theorem stale_dropped : ∃ s, Reachable quadruple rootOnly s ∧
    (∀ {i k t x}, t ∈ (s.flow i).log.scratches → x ∈ (s.flow k).log.heard → t.name ≠ x.2.getLastD []) ∧
    Stale quadruple 3 3 s := by
  have hrun : ((run (step quadruple) (.init quadruple rootOnly) dropped).any fun s =>
      decide ((∀ i < quadruple.flows, ∀ k < quadruple.flows, ∀ t ∈ (s.flow i).log.scratches,
          ∀ x ∈ (s.flow k).log.heard, t.name ≠ x.2.getLastD []) ∧
        (s.flow 3).net = .at ⟨entryOf .dir pathSecond 0, [scratchName [97] 0], [121], 3⟩ .dirMk ∧
        openDirChain s.sh.fs quadruple.root [scratchName [97] 0] = .error .ENOENT)) = true := by decide +kernel
  obtain ⟨s, hs, hv⟩ := (Option.any_eq_true _ _).1 hrun
  obtain ⟨hn, hnet, hwalk⟩ := of_decide_eq_true hv
  have hr : Reachable quadruple rootOnly s := .of_run hs
  exact ⟨s, hr, names_of_reach hr hn, hnet, hwalk⟩

/-- A scratch name that an entry has, or that is drawn twice, can leave a cache with a directory that no
walk reaches. -/
theorem cache_stale :
    (¬ ∀ (cfg : Cfg) (fs0 : Fs) (s : State), fs0.DirTree cfg.root → Reachable cfg fs0 s →
      Distinct (fun i => (s.flow i).log.scratches.map fun t => (t.parent, t.name)) → Fresh cfg s) ∧
    ¬ ∀ (cfg : Cfg) (fs0 : Fs) (s : State), fs0.DirTree cfg.root → Reachable cfg fs0 s →
      (∀ {i k t x}, t ∈ (s.flow i).log.scratches → x ∈ (s.flow k).log.heard → t.name ≠ x.2.getLastD []) →
      Fresh cfg s := by
  refine ⟨fun h => ?_, fun h => ?_⟩
  · obtain ⟨s, hr, hd, hs⟩ := stale_stolen
    exact hs.not_fresh (h triple rootOnly s (.of_flat rfl (by decide +kernel)) hr hd)
  · obtain ⟨s, hr, hn, hs⟩ := stale_dropped
    exact hs.not_fresh (h quadruple rootOnly s (.of_flat rfl (by decide +kernel)) hr hn)

end Thunderflash.Recv
