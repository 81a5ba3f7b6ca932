/-
What a durable session has flushed when it acknowledges: every file it wrote, after the last change to
it, and every directory that got an entry, as long as each of these is one that some entry registers.
-/
import Thunderflash.Recv.Registry
import Thunderflash.Recv.Unflushed

namespace Thunderflash.Recv

open Codec Posix Fs Lts Thunderflash.Recv.Flow

variable {cfg : Cfg} {c : Choice} {sh' : Shared} {fl' : Flow} {s s' s1 s2 z : State} {fs0 : Fs} {t : InFlight} {a : Act}
  {i d k : Nat} {ps : List Name}

/-! ## The flush at the end -/

/-- Inode `i` has been flushed between `s` and `s'`. -/
def FlushedSince (s s' : State) (i : Nat) : Prop := ∃ post, s'.sh.trace = s.sh.trace ++ post ∧ (.fsync i, i) ∈ post

/-- What the flush of the directories has done, when it has come to `pc`. -/
def Flushing (regs : List Nat) (post : List (Sys × Nat)) : MainPc → Prop
  | .running | .returned (.error _) => True
  | .flushing todo => ∀ d ∈ regs, d ∈ todo ∨ (.fsync d, d) ∈ post
  | .acking | .returned (.ok _) => ∀ d ∈ regs, (.fsync d, d) ∈ post
  | _ => False

theorem mainStep_flushing {post : List (Sys × Nat)} {tr : List (Sys × Nat)} (h : mainStep cfg c s = some s')
    (ht : s.sh.trace = tr ++ post) (hf : Flushing s.sh.regs post s.main) :
    ∃ post, s'.sh.trace = tr ++ post ∧ Flushing s'.sh.regs post s'.main := by
  unfold mainStep at h
  split at h
  case h_8 =>
    split at h
    · split at h <;> cases h
      · exact ⟨post, ht, trivial⟩
      · exact ⟨post, ht, fun d hd => .inl hd⟩
    · cases h
  case h_9 d todo hm =>
    rw [hm] at hf
    split at h
    · rename_i sh1 r hc
      cases h
      have hdid := call_did hc
      obtain rfl := (exec_fsync hdid.exec).2
      have htrace : sh1.trace = s.sh.trace ++ [(.fsync r, r)] := hdid.trace
      have hregs : sh1.regs = s.sh.regs := hdid.regs
      refine ⟨post ++ [(.fsync r, r)], ?_, ?_⟩
      · show sh1.trace = _
        rw [htrace, ht, List.append_assoc]
      · intro e he
        have he : e ∈ sh1.regs := he
        rw [hregs] at he
        rcases hf e he with hmem | hmem
        · rcases List.mem_cons.1 hmem with rfl | hmem
          · exact .inr (List.mem_append_right _ (List.mem_singleton_self _))
          · exact .inl hmem
        · exact .inr (List.mem_append_left _ hmem)
    · rename_i sh1 e hc
      cases h
      obtain rfl := call_eq_err hc
      exact ⟨post, ht, trivial⟩
  case h_10 hm =>
    rw [hm] at hf
    cases h
    exact ⟨post, ht, fun d hd => (hf d hd).resolve_left List.not_mem_nil⟩
  case h_11 hm =>
    rw [hm] at hf
    split at h <;> cases h
    · exact ⟨post, ht, trivial⟩
    · exact ⟨post, ht, hf⟩
  case h_12 => cases h
  all_goals
    rename_i hm
    rw [hm] at hf
    exact hf.elim

/-- From a state in which the flows run on, every registered directory is flushed before the acknowledgement. -/
theorem flushing_inv {ok : State → Act → State → Prop} (hd : cfg.durable = true) (h : Reach (step cfg) ok s z)
    (hm : s.main = .running) : ∃ post, z.sh.trace = s.sh.trace ++ post ∧ Flushing z.sh.regs post z.main := by
  refine h.invariant (I := fun z => ∃ post, z.sh.trace = s.sh.trace ++ post ∧ Flushing z.sh.regs post z.main) ?_ ?_
  · exact ⟨[], by simp, by rw [hm]; trivial⟩
  · intro u a u' hr ⟨post, ht, hf⟩ hst _
    rcases step_cases hst with ⟨i, c, sh', fl', hl, hs, rfl⟩ | ⟨ha, hmain | ⟨c, hmain⟩⟩
    · have hrun : (u.put i (sh', fl')).main = .running := hl.1
      rcases hs.trace hd with he | ⟨x, he⟩
      · exact ⟨post, he.trans ht, by rw [hrun]; trivial⟩
      · refine ⟨post ++ [x], ?_, by rw [hrun]; trivial⟩
        rw [show (u.put i (sh', fl')).sh.trace = sh'.trace from rfl, he, ht, List.append_assoc]
    · obtain ⟨l, hl, -⟩ := ha.trace
      refine ⟨post ++ l, by rw [hl, ht, List.append_assoc], ?_⟩
      rw [hmain, ha.regs]
      revert hf
      unfold Flushing
      split <;> intro hf
      · trivial
      · trivial
      · exact fun d hd => (hf d hd).imp_right (List.mem_append_left _)
      · exact fun d hd => List.mem_append_left _ (hf d hd)
      · exact fun d hd => List.mem_append_left _ (hf d hd)
      · exact hf.elim
    · exact mainStep_flushing hmain ht hf

/-! ## Directories -/

/-- An entry of the stream registers the directory at `ps`: the destination, or the parent of a Dir or Symlink
entry, or of a File entry whose scratch name fits. -/
def Registers (z : State) (ps : List Name) : Prop :=
  ps = [] ∨ ∃ k x n, x ∈ (z.flow k).log.heard ∧ x.2 = ps ++ [n] ∧ (x.1.kind = .file → n.length + 21 ≤ NAME_MAX)

/-- What a step of a session that ends in `z` has to meet. -/
structure Covered (z s : State) (a : Act) (_ : State) : Prop where
  /-- A directory in which a missing ancestor is made is registered by some entry, -/
  walk : ∀ i c j done n todo, a = .net i c → (s.flow i).net = .at j (.walkMk done n todo) →
    s.sh.fs.entry j.dir n = none → Registers z done
  /-- and so is one in which a file is created under its own name. -/
  place : ∀ i c j again, a = .net i c → (s.flow i).net = .at j (.placeCreate again) →
    s.sh.fs.entry j.dir j.name = none → Registers z j.parents
  /-- A stamp by name falls on no file that has been flushed. -/
  stamp : ∀ i c, a = .net i c → StampsPending s i
  rename : RenamesFiles s

/-- Everything a step from `s1` to `s2` changes is flushed before `z`. -/
structure Settles (s1 s2 z : State) : Prop where
  files : ∀ k t sys, t ∈ (z.flow k).log.born → s2.sh.trace = s1.sh.trace ++ [(sys, t.file)] → Sys.Sets sys →
    FlushedSince s2 z t.file
  dirs : ∀ d n i, s2.sh.fs.entry d n = some i → s1.sh.fs.entry d n ≠ some i → FlushedSince s2 z d

/-! ## One step -/

/-- Which thread takes a step. -/
theorem step_thread (h : step cfg s a = some s') :
    (∃ i c sh' fl', a = .net i c ∧ Live cfg s i ∧ (s.flow i).netStep cfg c s.sh = some (sh', fl') ∧ s' = s.put i (sh', fl')) ∨
      (∃ i c sh' fl', Live cfg s i ∧ (cfg.verify = true ∧ (s.flow i).hashStep cfg c s.sh = some (sh', fl') ∨
        (s.flow i).writerStep cfg c s.sh = some (sh', fl')) ∧ s' = s.put i (sh', fl')) ∨ Aside s s' := by
  cases a with
  | net i c =>
    obtain ⟨⟨sh', fl'⟩, hl, hf, rfl⟩ := threadStep_some h
    exact .inl ⟨i, c, sh', fl', rfl, hl, hf, rfl⟩
  | hash i c =>
    simp only [step] at h
    split at h
    · rename_i hv
      obtain ⟨⟨sh', fl'⟩, hl, hf, rfl⟩ := threadStep_some h
      exact .inr (.inl ⟨i, c, sh', fl', hl, .inl ⟨hv, hf⟩, rfl⟩)
    · cases h
  | writer i c =>
    obtain ⟨⟨sh', fl'⟩, hl, hf, rfl⟩ := threadStep_some h
    exact .inr (.inl ⟨i, c, sh', fl', hl, .inr hf, rfl⟩)
  | main c => exact .inr (.inr (mainStep_aside h))
  | deliver i bytes =>
    simp only [step] at h
    split at h <;> cases h
    exact .inr (.inr (.wire s i _ _))
  | cut i keep => cases h; exact .inr (.inr (.wire s i _ _))

/-- A step whose call is a writer's binds a name only by a rename. -/
theorem Effect.binds_writer {sh : Shared} {fl : Flow} {n : Name} (he : Effect cfg c sh fl sh' fl')
    (hw : ∀ sys r, Did cfg c sh sys r sh' → Sys.Writers sys) (hb : sh'.fs.entry d n = some i) :
    sh.fs.entry d n = some i ∨ ∃ t, fl.writer = .rename t n ∧ d = t.parent := by
  cases he with
  | mkdir hd | link hd | draw hd | place hd | date hd => exact (hw _ _ hd).elim
  | still hfs | keep hfs | leave hfs => rw [hfs] at hb; exact .inl hb
  | clear hd | undo hd | late hd =>
    obtain ⟨hdir, -, -, he⟩ := exec_unlinkat hd.exec
    rw [he, entry_unlink hdir] at hb
    split at hb
    · cases hb
    · exact .inl hb
  | fill hd =>
    obtain ⟨b, hl, -, he⟩ := exec_write hd.exec
    rw [he, entry_setFile hl] at hb
    exact .inl hb
  | chmod hd =>
    rw [(fchmod_meta hd.exec).1.entry] at hb
    exact .inl hb
  | stamp hd =>
    rw [(futimens_meta hd.exec).1.entry] at hb
    exact .inl hb
  | commit hd hpc =>
    obtain ⟨-, hdir, -, ⟨-, he⟩ | ⟨he, -, -⟩⟩ := exec_renameat hd.exec
    · rw [he] at hb; exact .inl hb
    · rw [he, entry_move hdir] at hb
      split at hb
      · rename_i hcell
        exact .inr ⟨_, by rw [hpc, hcell.2], hcell.1⟩
      · split at hb
        · cases hb
        · exact .inl hb

/-- The files of a run whose steps all meet the condition. -/
theorem files_flushed (hd : cfg.durable = true) (h : Reach (step cfg) (Covered z) (.init cfg fs0) s) : FilesFlushed s := by
  refine h.invariant (I := FilesFlushed) (fun _ _ ht => (List.not_mem_nil ht).elim) ?_
  intro s a s' hr ih hst ho
  rcases step_thread hst with ⟨i, c, sh', fl', rfl, -, hs, rfl⟩ | ⟨i, c, sh', fl', -, hs | hs, rfl⟩ | ha
  · refine ih.flowStep hd (.net hs) fun x hx hsets => ?_
    exact ((netStep_calls hs).called hx hsets).imp_right fun hx => ⟨ho.stamp i c rfl, hx⟩
  · refine ih.flowStep hd (.hash hs.1 hs.2) fun x hx hsets => ?_
    have hcalls := hashStep_calls (P := fun x => ¬ Sys.Sets x.1) hs.2 fun _ _ _ => id
    exact absurd hsets (hcalls.called hx)
  · exact ih.flowStep hd (.writer hs) fun x hx hsets => .inl (((writerStep_calls hd hs).called hx).2 hsets)
  · exact ih.aside ha

/-- Directories stay where they are. -/
theorem dirs_kept (h : Reach (step cfg) (Covered z) s s') : DirsKept s.sh.fs s'.sh.fs := by
  refine h.invariant (I := fun u => DirsKept s.sh.fs u.sh.fs) (.refl _) ?_
  intro u a u' _ ih hst ho
  rcases step_cases hst with ⟨i, c, sh', fl', -, hs, rfl⟩ | ⟨ha, -⟩
  · exact ih.trans (hs.change ho.rename).kept
  · rw [ha.fs]; exact ih

theorem trace_grows (hd : cfg.durable = true) {ok : State → Act → State → Prop} (h : Reach (step cfg) ok s s') :
    ∃ post, s'.sh.trace = s.sh.trace ++ post := by
  refine h.rel (R := fun s s' => ∃ post, s'.sh.trace = s.sh.trace ++ post) (fun s => ⟨[], by simp⟩) ?_ ?_
  · rintro s s' s'' ⟨p, hp⟩ ⟨q, hq⟩
    exact ⟨p ++ q, by rw [hq, hp, List.append_assoc]⟩
  · intro s a s' hst
    rcases step_cases hst with ⟨i, c, sh', fl', -, hs, rfl⟩ | ⟨ha, -⟩
    · rcases hs.trace hd with he | ⟨x, he⟩
      · exact ⟨[], by rw [List.append_nil]; exact he⟩
      · exact ⟨[x], he⟩
    · obtain ⟨l, hl, -⟩ := ha.trace
      exact ⟨l, hl⟩

/-- Only a flow the session has gets a log. -/
theorem lt_of_log {ok : State → Act → State → Prop} (h : Reach (step cfg) ok (.init cfg fs0) s)
    (hl : (s.flow k).log ≠ .init) : k < cfg.flows := by
  by_contra hge
  exact hl (log_idle h (by omega))

theorem log_grows {ok : State → Act → State → Prop} (h : Reach (step cfg) ok s s') (k : Nat) :
    (s.flow k).log.Grows (s'.flow k).log :=
  h.rel (R := fun s s' => (s.flow k).log.Grows (s'.flow k).log) (fun _ => .refl _) (fun _ _ _ => .trans)
    fun _ _ _ hst => step_grows hst k

/-! ## At the acknowledgement -/

section Acking

variable (hd : cfg.durable = true) (ht : fs0.DirTree cfg.root) (hz : Reach (step cfg) (Covered z) (.init cfg fs0) z)
  (hm : z.main = .acking)

include hz hm

theorem acking_ok : ∀ k < cfg.flows, (z.flow k).result cfg = some (.ok ()) := by
  have := phase_ok hz
  rwa [hm] at this

theorem acking_born (hb : t ∈ (z.flow k).log.born) : (z.flow k).Succeeded cfg ∧
    ∃ w, (z.flow k).writer = .closing [] w ∧ w = .ok () := by
  have hlt : k < cfg.flows := lt_of_log hz fun he => by rw [he] at hb; cases hb
  have hf := flow_inv hz k
  have hok := acking_ok hz hm k hlt
  obtain ⟨-, -, w, hw, hres⟩ := hf.joined hok
  exact ⟨hf.success hok, w, hw, (hres rfl).1⟩

/-- No file is left to be flushed. -/
theorem acking_flushed : ¬ Pending z i := by
  rintro ⟨k, u, hu, -⟩
  have hf := flow_inv hz k
  have hborn : u ∈ (z.flow k).log.born := by
    rcases hu with hu | hu
    · exact hf.token_born (unflushed_token hu)
    · exact hf.undone_born hu
  have hlt : k < cfg.flows := lt_of_log hz fun he => by rw [he] at hborn; cases hborn
  have hok := acking_ok hz hm k hlt
  rcases hu with hu | hu
  · have := unflushed_token hu
    rw [(hf.joined hok).2.1] at this
    cases this
  · rw [(hf.success hok).undone] at hu
    cases hu

include hd ht

/-- The directory of every scratch file is registered. -/
theorem acking_scratch (hb : t ∈ (z.flow k).log.born) (hs : t.scratch = true) : t.parent ∈ z.sh.regs := by
  obtain ⟨hsucc, w, hw, rfl⟩ := acking_born hz hm hb
  rw [← hsucc.kept] at hb
  rcases (registry_inv hd ht (fun _ _ _ ho => ho.rename) hz).2.kept hb hs with hr | hr | ⟨u, e, hr⟩ | ⟨l, e, hr⟩
  · exact hr
  all_goals rw [hw] at hr; cases hr

/-- An entry that registers its directory has done so. -/
theorem Registers.regs (hk : k < cfg.flows) (h : Registers z ps) (hp : Handle z.sh.fs cfg.root d ps) : d ∈ z.sh.regs := by
  obtain ⟨hG, hR⟩ := registry_inv hd ht (fun _ _ _ ho => ho.rename) hz
  rcases h with rfl | ⟨l, x, n, hx, hcomps, hshort⟩
  · obtain ⟨-, -, w, -, hnet⟩ := (flow_inv hz k).joined (acking_ok hz hm k hk)
    have hroot : cfg.root ∈ z.sh.regs := hR.root (i := k) (by rw [(hnet rfl).2]; trivial)
    cases hp.path
    exact hroot
  · have hlt : l < cfg.flows := lt_of_log hz fun he => by rw [he] at hx; cases hx
    have hf := flow_inv hz l
    have hsucc := hf.success (acking_ok hz hm l hlt)
    rw [hsucc.heard] at hx
    obtain ⟨fr, hfr, rfl⟩ := List.mem_map.1 hx
    by_cases hkind : fr.entry.kind = .file
    · -- its scratch file was renamed in the directory
      have hmem : fr ∈ (z.flow l).log.done.filter Frame.isFile := List.mem_filter.2 ⟨hfr, by simp [Frame.isFile, hkind]⟩
      obtain ⟨f, hfile, hdel⟩ := forall₂_mem hf.net.log.files.flip hmem
      have hborn : f.1 ∈ (z.flow l).log.born := by
        rw [← hsucc.kept, hsucc.files, Tally.tokens, hsucc.sent]
        exact List.mem_map_of_mem hfile
      have hpath : f.1.dirs ++ [f.1.target] = ps ++ [n] := hdel.path.trans hcomps
      obtain ⟨hdirs, htarget⟩ := List.append_inj' hpath rfl
      have hscratch : f.1.scratch = true := by
        by_contra hno
        have hno : f.1.scratch = false := by simpa using hno
        have hlong := hf.long hborn hno
        rw [← target_of_not_scratch hno, List.singleton_inj.1 htarget] at hlong
        have := hshort hkind
        omega
      have hplace := (hG.placed l).born f.1 hborn
      rw [hdirs] at hplace
      obtain rfl := Option.some.inj (hplace.path.symm.trans hp.path)
      exact acking_scratch hd ht hz hm hborn hscratch
    · obtain ⟨e, he, hplace⟩ := hR.made hfr hkind
      have hdrop : fr.comps.dropLast = ps := by
        rw [show fr.comps = ps ++ [n] from hcomps, List.dropLast_concat]
      rw [hdrop] at hplace
      obtain rfl := Option.some.inj (hplace.path.symm.trans hp.path)
      exact he

end Acking

/-- The same condition, computed, when the stream registers the directories at `paths`. -/
def covered (cfg : Cfg) (paths : List (List Name)) (s : State) (a : Act) (_ : State) : Bool :=
  (match a with
  | .net i _ =>
    match (s.flow i).net with
    | .at j (.walkMk done n _) => (s.sh.fs.entry j.dir n).isSome || decide (done ∈ paths)
    | .at j (.placeCreate _) => (s.sh.fs.entry j.dir j.name).isSome || decide (j.parents ∈ paths)
    | .at j .dirStamp | .at j .linkStamp =>
      (List.range cfg.flows).all fun l => (s.flow l).log.born.all fun t => decide (s.sh.fs.entry j.dir j.name ≠ some t.file)
    | _ => true
  | _ => true) &&
  (List.range cfg.flows).all fun i =>
    match (s.flow i).writer with
    | .rename t _ => (s.sh.fs.entry t.parent t.name).all fun r => decide (s.sh.fs.leaf r ≠ some .dir)
    | _ => true

theorem covered_iff {paths : List (List Name)} (hr : Reachable cfg fs0 s) (hp : ∀ p ∈ paths, Registers z p)
    (h : covered cfg paths s a s' = true) : Covered z s a s' := by
  obtain ⟨ha, hw⟩ := Bool.and_eq_true_iff.1 h
  have hall : ∀ {l : Nat} {P : Nat → Bool}, (s.flow l).log ≠ .init → (List.range cfg.flows).all P = true → P l = true :=
    fun hl hP => List.all_eq_true.1 hP _ (List.mem_range.2 (lt_of_log hr hl))
  have hne : ∀ {l t}, t ∈ (s.flow l).log.born → (s.flow l).log ≠ .init := fun ht he => by rw [he] at ht; cases ht
  refine ⟨?_, ?_, ?_, ?_⟩
  · rintro i c j done n todo rfl hn hfree
    simp only [hn, hfree, Option.isSome_none, Bool.false_or, decide_eq_true_eq] at ha
    exact hp _ ha
  · rintro i c j again rfl hn hfree
    simp only [hn, hfree, Option.isSome_none, Bool.false_or, decide_eq_true_eq] at ha
    exact hp _ ha
  · rintro i c rfl j hn l t ht he
    have hno : (List.range cfg.flows).all (fun l => (s.flow l).log.born.all fun t =>
        decide (s.sh.fs.entry j.dir j.name ≠ some t.file)) = true := by
      rcases hn with hn | hn <;> simpa only [hn] using ha
    have := List.all_eq_true.1 (hall (hne ht) hno) t ht
    exact absurd he (of_decide_eq_true this)
  · intro i t final r hn he
    have hborn := (flow_inv hr i).token_born ((flow_inv hr i).rename_token hn).1
    have := hall (hne hborn) hw
    simp only [hn, he, Option.all_some, decide_eq_true_eq] at this
    exact this

theorem covered_reach {paths : List (List Name)} {as : List Act} (h0 : Reachable cfg fs0 s)
    (hp : ∀ p ∈ paths, Registers z p) (hs : runIf (step cfg) (covered cfg paths) s as = some s') :
    Reach (step cfg) (Covered z) s s' := by
  have hr : Reach (step cfg) (fun s a s' => covered cfg paths s a s' = true) s s' := .of_runIf (fun _ _ _ h => h) hs
  clear hs
  induction hr with
  | init => exact .init
  | step hr hst ho ih => exact .step ih hst (covered_iff (h0.trans hr.any) hp ho)

/-- One flow, durable. -/
def lasting : Cfg := { single with durable := true }

/-- The directory `a` arrives, and a file in it, and the session acknowledges: up to the `mkdirat`, and after it. -/
def untilMkdir : List Act := List.flatten [opening lasting,
  [.deliver 0 (encodeAll [dirFrame pathA 5, fileFrame pathAB [8]] ++ [0])], netRuns 0 4]

def sinceMkdir : List Act := List.flatten [netRuns 0 13, writerRuns 0 10, List.replicate 4 (.main plain)]

/-- In the directory `a`, a name too long for a scratch name. -/
def pathLongInA : Str := ⟨[97, 47] ++ pathLong.bytes, by decide +kernel⟩

/-- The directory `a` arrives, and a file of this name, and the session acknowledges: up to the `openat` that
creates the file, and after it. -/
def untilPlaced : List Act := List.flatten [opening lasting,
  [.deliver 0 (encodeAll [dirFrame pathA 5, fileFrame pathLongInA [8]] ++ [0])], netRuns 0 12]

def sincePlaced : List Act := List.flatten [netRuns 0 6, writerRuns 0 8, List.replicate 3 (.main plain)]

end Thunderflash.Recv
