/-
The mtimes of a session's directories: what a Dir entry's stamp leaves is there at the end as long as
no name comes or goes in the directory after it.
-/
import Thunderflash.Recv.Dirs

namespace Thunderflash.Recv

open Codec Posix Fs Lts Thunderflash.Recv.Flow

variable {cfg : Cfg} {c : Choice} {sh sh' : Shared} {fl fl' : Flow} {s s' : State} {fs0 : Fs} {d : Nat}
  {x : Entry × List Name}

/-! ## What changes a directory's mtime -/

theorem mtime_of_inode {fs fs' : Fs} (h : fs'.inodes[d]? = fs.inodes[d]?) : fs'.mtime d = fs.mtime d := by
  simp only [Fs.mtime, h]

/-- A directory in which no name comes or goes keeps its mtime, unless it is itself stamped. -/
theorem Effect.dir_mtime (h : Effect cfg c sh fl sh' fl') (hd : sh.fs.leaf d = some .dir)
    (hfile : ∀ t, fl.writer = .stamp t → ∃ b, sh.fs.leaf t.file = some (.file b))
    (hsame : ∀ n, sh'.fs.entry d n = sh.fs.entry d n) : sh'.fs.mtime d = sh.fs.mtime d ∨
      ∃ j, (fl.net = .at j .dirStamp ∨ fl.net = .at j .linkStamp) ∧ sh.fs.entry j.dir j.name = some d := by
  have hcreate : ∀ {e n l m}, Creates sh.fs sh'.fs e n l m → sh'.fs.mtime d = sh.fs.mtime d := by
    intro e n l m hc
    refine mtime_of_inode (hc.other ?_ (lt_of_leaf hd))
    rintro rfl
    have := hsame n
    rw [hc.free, hc.entry, if_pos ⟨rfl, rfl⟩] at this
    cases this
  have hunlink : ∀ {e r n}, sh.fs.entry e n = some r → sh.fs.leaf e = some .dir → sh'.fs = sh.fs.unlink e n c.now →
      sh'.fs.mtime d = sh.fs.mtime d := by
    intro e r n hn he hfs
    rw [hfs]
    refine mtime_of_inode (inode_update_ne ?_)
    rintro rfl
    have := hsame n
    rw [hfs, entry_unlink he, if_pos ⟨rfl, rfl⟩, hn] at this
    cases this
  have hother : ∀ {r}, sh.fs.leaf r ≠ some .dir → d ≠ r := by
    rintro r hr rfl
    exact hr hd
  cases h with
  | still hfs | keep hfs | leave hfs => rw [hfs]; exact .inl rfl
  | mkdir hd' => exact .inl (hcreate (mkdirat_creates hd'.exec).2)
  | link hd' => exact .inl (hcreate (symlinkat_creates hd'.exec).2)
  | draw hd' => exact .inl (hcreate (openExcl_creates hd'.exec).2)
  | place hd' =>
    rcases openTrunc_cases hd'.exec with ⟨-, hc⟩ | ⟨b, -, hb, he⟩
    · exact .inl (hcreate hc)
    · rw [he]
      exact .inl (mtime_of_inode (inode_update_ne (hother (by rw [hb]; simp))))
  | clear hd' | undo hd' | late hd' =>
    obtain ⟨he, hn, -, hfs⟩ := exec_unlinkat hd'.exec
    exact .inl (hunlink hn he hfs)
  | @date j r hd' hpc =>
    obtain ⟨hn, hm, -, -⟩ := utimensat_meta hd'.exec
    by_cases hr : d = r
    · subst hr; exact .inr ⟨j, hpc, hn⟩
    · exact .inl (mtime_of_inode (hm.other hr))
  | fill hd' =>
    obtain ⟨b, hb, -, he⟩ := exec_write hd'.exec
    rw [he]
    exact .inl (mtime_of_inode (inode_update_ne (hother (by rw [hb]; simp))))
  | chmod hd' =>
    obtain ⟨-, -, he⟩ := exec_fchmod hd'.exec
    rw [he, mtime_update]
    left
    split <;> rfl
  | @stamp t r hd' hw =>
    obtain ⟨b, hb⟩ := hfile t hw
    obtain ⟨hm, -, -⟩ := futimens_meta hd'.exec
    exact .inl (mtime_of_inode (hm.other (hother (by rw [hb]; simp))))
  | @commit t final r hd' =>
    obtain ⟨-, he, -, ⟨-, hfs⟩ | ⟨hfs, hne, -⟩⟩ := exec_renameat hd'.exec
    · rw [hfs]; exact .inl rfl
    · left
      rw [hfs]
      refine mtime_of_inode (inode_update_ne ?_)
      rintro rfl
      have := hsame final
      rw [hfs, entry_move he, if_pos ⟨rfl, rfl⟩] at this
      exact hne this.symm

/-- A stamp goes through unless the environment fails it. -/
theorem call_utimensat {e : Nat} {n : Name} {m : Int64} (hf : c.fault = none) (hn : n.length ≤ NAME_MAX)
    (he : sh.fs.entry e n = some d) : ∃ i, (call cfg c sh (.utimensat e n m)).2 = .ok i := by
  have hcheck : sh.fs.checkAt e n = .ok () := by
    unfold checkAt
    rw [if_neg (by omega), if_pos (dir_of_entry he)]
  exact ⟨d, by simp [call, hf, exec, hcheck, he, Bind.bind, Except.bind]⟩

theorem FlowStep.dirStamp {j : Job} (hs : fl.netStep cfg c sh = some (sh', fl')) (hn : fl.net = .at j .dirStamp) :
    sh' = (call cfg c sh (.utimensat j.dir j.name j.entry.mtime)).1 ∧ fl' = fl.made cfg j := by
  have hreq : netRequest cfg c fl.net = some (.utimensat j.dir j.name j.entry.mtime) := by rw [hn]; rfl
  unfold netStep at hs
  rw [hreq] at hs
  simp only [netResume, hn, Option.some.injEq] at hs
  obtain ⟨rfl, rfl⟩ := Prod.mk.inj hs
  exact ⟨rfl, rfl⟩

/-- What the stamp of a Dir entry leaves. -/
theorem FlowStep.dirStamp_mtime {j : Job} (hs : fl.netStep cfg c sh = some (sh', fl')) (hn : fl.net = .at j .dirStamp)
    (hf : c.fault = none) (hlen : j.name.length ≤ NAME_MAX) (he : sh.fs.entry j.dir j.name = some d)
    (hd : sh.fs.leaf d = some .dir) : sh'.fs.mtime d = some j.entry.mtime := by
  obtain ⟨rfl, -⟩ := FlowStep.dirStamp hs hn
  obtain ⟨r, hok⟩ := call_utimensat (c := c) (m := j.entry.mtime) hf hlen he
  obtain ⟨hr, -, -, hm⟩ := utimensat_meta (call_ok hok).2.exec
  obtain rfl : d = r := Option.some.inj (he.symm.trans hr)
  exact hm (lt_of_leaf hd)

/-! ## Calm runs -/

/-- No stamp of a directory fails, and once a directory has its stamp no name in it comes or goes. -/
structure Calm (cfg : Cfg) (s : State) (a : Act) (s' : State) : Prop where
  stamp : ∀ i c j, a = .net i c → (s.flow i).net = .at j .dirStamp → c.fault = none
  names : ∀ i x d, (s.flow i).Stamped x → Handle s.sh.fs cfg.root d x.2 → ∀ n, s'.sh.fs.entry d n = s.sh.fs.entry d n

/-- Every directory stamped has its entry's mtime. -/
def Dated (cfg : Cfg) (s : State) : Prop :=
  ∀ i x, (s.flow i).Stamped x → ∃ d, Handle s.sh.fs cfg.root d x.2 ∧ s.sh.fs.mtime d = some x.1.mtime

/-- What is stamped is not under way before its registration. -/
theorem FlowInv.stamped_once {j : Job} {st : Stage} (hi : FlowInv cfg fl) (hn : fl.net = .at j st) (hst : st ≠ .register)
    (hu : (fl.log.heard.map Prod.snd).Nodup) (hx : fl.Stamped x) : x.2 ≠ j.comps := by
  have hpc := hi.net.pc
  rw [hn] at hpc
  rw [hpc.1.heard, List.map_append] at hu
  intro he
  obtain ⟨-, hx | ⟨i, hn', -⟩⟩ := hx
  · exact (List.nodup_append.1 hu).2.2 _ (List.mem_map_of_mem hx) _ (by simp) he
  · rw [hn] at hn'
    cases hn'
    exact hst rfl

section Step

variable {i : Nat} (h : Dated cfg s) (hS : Standing cfg s) (hD : Disk cfg fs0 s) (hU : Unique s)
  (hf : ∀ i, FlowInv cfg (s.flow i)) (hs : FlowStep cfg c s.sh (s.flow i) sh' fl')

include h hS hD hU hf hs

theorem Dated.flowStep (hstamp : fl'.net ≠ (s.flow i).net → (∃ j, (s.flow i).net = .at j .dirStamp) → c.fault = none)
    (hnames : ∀ k x d, (s.flow k).Stamped x → Handle s.sh.fs cfg.root d x.2 → ∀ n, sh'.fs.entry d n = s.sh.fs.entry d n) :
    Dated cfg (s.put i (sh', fl')) := by
  have he := hs.effect
  have hkept := (hD.change (hf i) he).kept
  have hold : ∀ {k y}, (s.flow k).Stamped y → ∃ d, Handle sh'.fs cfg.root d y.2 ∧ sh'.fs.mtime d = some y.1.mtime := by
    intro k y hy
    obtain ⟨d, hd, hm⟩ := h k y hy
    have hfile : ∀ t, (s.flow i).writer = .stamp t → ∃ b, s.sh.fs.leaf t.file = some (.file b) := fun t hw =>
      hD.file ((hf i).token_born (by rw [tokens_eq, hw]; exact List.mem_append_right _ (List.mem_singleton_self _)))
    refine ⟨d, hd.mono hkept, ?_⟩
    rcases he.dir_mtime hd.dir hfile (hnames k y d hy hd) with hsame | ⟨j, hn, hj⟩
    · exact hsame.trans hm
    · -- it would be stamped as another entry
      have hp : Handle s.sh.fs cfg.root j.dir j.parents := by
        have := (hD.placed i).net
        rcases hn with hn | hn <;> rwa [hn] at this
      obtain ⟨st, hst, hne⟩ : ∃ st, (s.flow i).net = .at j st ∧ st ≠ .register := by
        rcases hn with hn | hn <;> exact ⟨_, hn, by simp⟩
      have hpath : y.2 = j.comps := hD.tree.inj hd (hp.snoc hj hd.dir)
      obtain ⟨rfl, rfl⟩ := hU.paths.eq (hy.heard (hf k)) ((hf i).heard_job hst) hpath
      exact absurd rfl ((hf k).stamped_once hst hne (hU.paths.nodup k) hy)
  intro k y hy
  by_cases hk : k = i
  · subst hk
    rw [put_flow] at hy
    rcases (hs.stamped (hf k)).1 hy with hy | ⟨⟨j, hn, rfl⟩, hnet⟩
    · exact hold hy
    · -- just stamped
      obtain ⟨hlen, d, hd⟩ := hS k _ (.inr ⟨j, hn, rfl⟩)
      have hp : Handle s.sh.fs cfg.root j.dir j.parents := by
        have := (hD.placed k).net
        rwa [hn] at this
      have hj : s.sh.fs.entry j.dir j.name = some d := by
        rw [← hp.resolve]
        exact hd.path
      have hmoved : fl'.net ≠ (s.flow k).net := by
        rw [hn, (FlowStep.dirStamp hnet hn).2]
        exact made_stamp _ j j
      rw [comps_last] at hlen
      exact ⟨d, hd.mono hkept, FlowStep.dirStamp_mtime hnet hn (hstamp hmoved ⟨j, hn⟩) hlen hj hd.dir⟩
  · rw [put_flow_ne _ _ hk] at hy
    exact hold hy

end Step

theorem Dated.aside (h : Dated cfg s) (ha : Aside s s') : Dated cfg s' := by
  intro i x hx
  rw [ha.fs]
  exact h i x ((still_stamped (ha.net i) (congrArg Log.done (ha.log i))).1.1 hx)

/-! ## An empty destination -/

/-- In an empty destination every name that leads anywhere from the root is new. -/
theorem Disk.new_of_empty (hD : Disk cfg fs0 s) (h0 : ∀ n, fs0.entry cfg.root n = none) {ps : List Name} {n : Name}
    {r : Nat} (hr : resolve s.sh.fs.entry cfg.root (ps ++ [n]) = some r) : fs0.inodes.length ≤ r := by
  by_contra hlt
  have hold := Faithful.resolve hD.faithful (by omega) hr
  cases ps with
  | nil =>
    rw [List.nil_append, resolve_cons, h0] at hold
    cases hold
  | cons m ps =>
    rw [List.cons_append, resolve_cons, h0] at hold
    cases hold

/-- There, with distinct paths, the `mkdirat` of a Dir entry finds nothing but directories. -/
theorem Known.clear (hK : Known cfg fs0 s) (h0 : ∀ n, fs0.entry cfg.root n = none) (hU : Unique s)
    (hf : ∀ i, FlowInv cfg (s.flow i)) (i : Nat) : Clear s i := by
  intro j r hn hr
  have hp : Handle s.sh.fs cfg.root j.dir j.parents := by
    have := (hK.placed i).net
    rwa [hn] at this
  have hq : Quiet cfg (s.flow i).log := by
    have := (hf i).net.pc
    rw [hn] at this
    exact this.2.1.toQuiet
  have hj := (hf i).heard_job hn
  have hnew : fs0.inodes.length ≤ r := hK.new_of_empty h0 (by rw [hp.resolve]; exact hr)
  have hborn : ∀ {k t}, t ∈ (s.flow k).log.born → j.dir = t.parent → j.name ≠ t.target := by
    intro k t ht hd hname
    refine hU.new_path hf hn hq ht ?_
    have hplace := (hK.placed k).born t ht
    rw [← hd] at hplace
    rw [InFlight.path, hK.tree.inj hplace hp, ← hname, Job.comps]
  cases hK.sourced hnew hr with
  | dir _ _ _ hl | ancestor _ _ _ hl => exact hl
  | @link k fr ps hh _ hk hc hps _ =>
    have hpath : fr.comps = j.comps := by rw [hc, hK.tree.inj hps hp, Job.comps]
    obtain ⟨rfl, he⟩ := hU.paths.eq hh hj hpath
    have hkind := (hf k).net.pc
    rw [hn] at hkind
    rw [(Prod.mk.inj he).1, hkind.2.2] at hk
    cases hk
  | scratch ht _ _ hname =>
    refine absurd ?_ (hU.names ht hj)
    rw [comps_last]
    exact hname.symm
  | commit ht _ _ hd hname => exact absurd hname (hborn (mem_scratches.1 ht).1 hd)
  | place ht hs _ hd hname => exact absurd (hname.trans (target_of_not_scratch hs).symm) (hborn ht hd)

theorem dated_inv (ht : fs0.DirTree cfg.root) (h0 : ∀ n, fs0.entry cfg.root n = none)
    (h : Reach (step cfg) (Calm cfg) (.init cfg fs0) s) : Unique s → Dated cfg s := by
  have hclear : ∀ s, Reach (step cfg) (Calm cfg) (.init cfg fs0) s → Unique s → ∀ i, Clear s i := fun s hr hU i =>
    (known ht hr (unique_disk ht hr hU).1).clear h0 hU (fun i => flow_inv hr i) i
  refine h.invariant_while (I := Dated cfg) (P := Unique) ?_ (fun s a s' hst hU => hU.mono (step_grows hst)) ?_
  · rintro i x ⟨-, hx | ⟨j, hn, -⟩⟩
    · cases hx
    · cases hn
  · intro s a s' hr hU _ ih hst ho
    rcases step_faults hst with ⟨i, c, sh', fl', -, hfault, hf, rfl⟩ | ⟨ha, -⟩
    · refine ih.flowStep (standing_inv ht hr (fun s a s' hr hU _ i _ _ => hclear s hr hU i) hU) (unique_disk ht hr hU).2 hU
        (fun i => flow_inv hr i) hf (fun hne hst' => ?_) ho.names
      obtain ⟨j, hn⟩ := hst'
      rcases step_net hst i with hsame | ⟨c', rfl⟩
      · rw [put_flow] at hsame
        exact absurd hsame hne
      · exact hfault.symm.trans (ho.stamp i c' j rfl hn)
    · exact ih.aside ha

/-- In every session into an empty destination that succeeds, each Dir entry's directory has the entry's
mtime, if no stamp failed and no name came or went in a directory after its stamp. -/
theorem dirs_dated (ht : fs0.DirTree cfg.root) (h0 : ∀ n, fs0.entry cfg.root n = none)
    (h : Reach (step cfg) (Calm cfg) (.init cfg fs0) s) (hU : Unique s) {st : Stats} (hr : s.main = .returned (.ok st))
    {i : Nat} (hx : x ∈ (s.flow i).log.heard) (hk : x.1.kind = .dir) :
    ∃ d, Handle s.sh.fs cfg.root d x.2 ∧ s.sh.fs.mtime d = some x.1.mtime := by
  rw [heard_done h hr] at hx
  exact dated_inv ht h0 h hU i x ⟨hk, .inl hx⟩

/-- What a flow has stamped. -/
def Flow.stamps (fl : Flow) : List (Entry × List Name) :=
  fl.log.done.map (fun fr => (fr.entry, fr.comps)) ++
    match fl.net with
    | .at j .register => [(j.entry, j.comps)]
    | _ => []

theorem Flow.Stamped.mem (h : fl.Stamped x) : x ∈ fl.stamps := by
  obtain ⟨-, hx | ⟨j, hn, rfl⟩⟩ := h
  · exact List.mem_append_left _ hx
  · refine List.mem_append_right _ ?_
    rw [hn]
    exact List.mem_singleton_self _

/-- Calm steps that meet no failure at all, computed. -/
def calm (cfg : Cfg) (s : State) (a : Act) (s' : State) : Bool :=
  decide (a.fault = none) && (List.range cfg.flows).all fun i => (s.flow i).stamps.all fun x =>
    match Posix.resolve s.sh.fs.entry cfg.root x.2 with
    | some d => decide (s'.sh.fs.node d = s.sh.fs.node d)
    | none => true

theorem calm_reach {as : List Act} (hs : runIf (step cfg) (calm cfg) (.init cfg fs0) as = some s) :
    Reach (step cfg) (Calm cfg) (.init cfg fs0) s := by
  have hr : Reach (step cfg) (fun s a s' => calm cfg s a s' = true) (.init cfg fs0) s := .of_runIf (fun _ _ _ h => h) hs
  clear hs
  induction hr with
  | init => exact .init
  | @step s a s' hr hst ho ih =>
    obtain ⟨hfault, hall⟩ := Bool.and_eq_true_iff.1 ho
    refine .step ih hst ⟨?_, ?_⟩
    · rintro i c j rfl -
      exact of_decide_eq_true hfault
    · intro i x d hx hd n
      have hi : i < cfg.flows := by
        by_contra hge
        have hmem := hx.heard (flow_inv hr i)
        rw [log_idle hr (by omega)] at hmem
        cases hmem
      have := List.all_eq_true.1 (List.all_eq_true.1 hall i (List.mem_range.2 hi)) x hx.mem
      rw [hd.path] at this
      exact entry_congr (of_decide_eq_true this) n

theorem dirs_dated_lone : ∃ s d, runIf (step single) (calm single) (.init single rootOnly) lone = some s ∧
    Handle s.sh.fs single.root d [[97]] ∧ s.sh.fs.mtime d = some 5 := by
  have hrun : ((runIf (step single) (calm single) (.init single rootOnly) lone).any fun s =>
      decide (Concluded single ((dirFrame pathA 5).entry, [[97]]) s)) = true := by decide +kernel
  obtain ⟨s, hs, hv⟩ := (Option.any_eq_true _ _).1 hrun
  have hc := of_decide_eq_true hv
  have hreach := calm_reach hs
  obtain ⟨d, hd, hm⟩ :=
    dirs_dated (.of_flat rfl (by decide +kernel)) (fun _ => rfl) hreach (hc.unique hreach) hc.1 hc.2.1 rfl
  exact ⟨s, d, hs, hd, hm⟩

/-! ## A directory that gets a file -/

/-- What an action's calls read off the clock. -/
def Act.now : Act → Option Int64
  | .net _ c | .hash _ c | .writer _ c | .main c => some c.now
  | _ => none

/-- The clock shows none of the times `ts`. -/
def Past (ts : List Int64) (_ : State) (a : Act) (_ : State) : Prop := ∀ m ∈ ts, a.now ≠ some m

instance (ts : List Int64) (s : State) (a : Act) (s' : State) : Decidable (Past ts s a s') :=
  List.decidableBAll _ ts

/-- The directory `a` arrives, and a file in it. -/
def filled : List Act := List.flatten [opening single,
  [.deliver 0 (encodeAll [dirFrame pathA 5, fileFrame pathAB [8]] ++ [0])], netRuns 0 16,
  writerRuns 0 8, List.replicate 3 (.main plain)]

/-- The scratch file that is created in a directory and renamed there takes the stamp away. -/
theorem dirs_not_dated : ¬ ∀ (cfg : Cfg) (fs0 : Fs) (ts : List Int64) (s : State) (st : Stats), fs0.DirTree cfg.root →
    (∀ n, fs0.entry cfg.root n = none) → Reach (step cfg) (Past ts) (.init cfg fs0) s → Unique s →
    (∀ i, ∀ x ∈ (s.flow i).log.heard, x.1.kind = .dir → x.1.mtime ∈ ts) → s.main = .returned (.ok st) →
    ∀ i, ∀ x ∈ (s.flow i).log.heard, x.1.kind = .dir →
    ∃ d, Handle s.sh.fs cfg.root d x.2 ∧ s.sh.fs.mtime d = some x.1.mtime := by
  intro h
  have hrun : ((runIf (step single) (fun s a s' => decide (Past [5] s a s')) (.init single rootOnly) filled).any fun s =>
      decide (Concluded single ((dirFrame pathA 5).entry, [[97]]) s ∧
        (∀ x ∈ (s.flow 0).log.heard, x.1.kind = .dir → x.1.mtime ∈ ([5] : List Int64)) ∧
        Posix.resolve s.sh.fs.entry single.root [[97]] = some 1 ∧ s.sh.fs.mtime 1 = some 0)) = true := by
    decide +kernel
  obtain ⟨s, hs, hv⟩ := (Option.any_eq_true _ _).1 hrun
  obtain ⟨hc, hts, he, hm⟩ := of_decide_eq_true hv
  have hreach : Reach (step single) (Past [5]) (.init single rootOnly) s := .of_runIf (fun _ _ _ h => of_decide_eq_true h) hs
  have htimes := forall_log (P := fun l => ∀ x ∈ l.heard, x.1.kind = .dir → x.1.mtime ∈ ([5] : List Int64)) hreach
    (fun _ hx => by cases hx) fun i hi => by
      obtain rfl : i = 0 := by simpa [single] using hi
      exact hts
  obtain ⟨d, hd, hdate⟩ := h single rootOnly [5] s _ (.of_flat rfl (by decide +kernel)) (fun _ => rfl) hreach
    (hc.unique hreach) htimes hc.1 0 _ hc.2.1 rfl
  obtain rfl : 1 = d := Option.some.inj (he.symm.trans hd.path)
  rw [hm] at hdate
  exact absurd hdate (by decide)

end Thunderflash.Recv
