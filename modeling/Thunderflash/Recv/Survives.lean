/-
A session that fails leaves every file and symbolic link it found: as it was, or with a complete entry of
the stream in its place, as long as no symlink fails to be made once its name has been cleared.
-/
import Thunderflash.Recv.Dirs

namespace Thunderflash.Recv

open Codec Posix Fs Lts Thunderflash.Recv.Flow

variable {cfg : Cfg} {c : Choice} {sh sh' : Shared} {fl fl' : Flow} {s s' : State} {fs0 : Fs} {d i k r : Nat} {n : Name}

/-! ## Names that are held -/

/-- Every entry heard has a name short enough for a scratch name. -/
def Brief (s : State) : Prop := ∀ {i x}, x ∈ (s.flow i).log.heard → (x.2.getLastD []).length + 21 ≤ NAME_MAX

theorem Brief.mono (h : Brief s') (hg : ∀ i, (s.flow i).log.Grows (s'.flow i).log) : Brief s :=
  fun hx => h ((hg _).heard.subset hx)

theorem Brief.job {j : Job} {st : Stage} (h : Brief s) (hf : FlowInv cfg (s.flow i)) (hn : (s.flow i).net = .at j st) :
    j.name.length + 21 ≤ NAME_MAX := by
  have := h (hf.heard_job hn)
  rwa [comps_last] at this

/-- Then every file created has a scratch name. -/
theorem Brief.scratch {t : InFlight} (h : Brief s) (hf : FlowInv cfg (s.flow i)) (ht : t ∈ (s.flow i).log.born) :
    t.scratch = true := by
  by_contra hs
  have hs : t.scratch = false := by simpa using hs
  obtain ⟨x, hx, hlast⟩ := hf.target_heard ht
  have hlong := hf.long ht hs
  have hbrief := h hx
  rw [hlast, target_of_not_scratch hs] at hbrief
  omega

/-- A flow is about to clear name `n` of directory `d` for a link, or to make the link. -/
def Linking (s : State) (d : Nat) (n : Name) : Prop :=
  ∃ k j target, ((s.flow k).net = .at j (.linkUnlink target) ∨ (s.flow k).net = .at j (.linkMake target)) ∧
    j.dir = d ∧ j.name = n

/-- Something that no entry made as an ancestor is at the name, or a link is about to be. -/
def Held (s : State) (d : Nat) (n : Name) (p : List Name) : Prop :=
  (∃ i, s.sh.fs.entry d n = some i ∧
    (s.sh.fs.leaf i ≠ some .dir ∨ ∃ k e, (e, p) ∈ (s.flow k).log.heard ∧ e.kind = .dir)) ∨ Linking s d n

/-- Where a link is to be made at a path that had a file or a link before the session, it can be made. -/
def Links (cfg : Cfg) (fs0 : Fs) (s : State) (a : Act) (_ : State) : Prop :=
  ∀ i c j target r, a = .net i c → (s.flow i).net = .at j (.linkMake target) →
    resolve fs0.entry cfg.root j.comps = some r → fs0.leaf r ≠ some .dir →
    c.fault = none ∧ 0 ∉ target ∧ s.sh.fs.entry j.dir j.name = none

theorem call_symlinkat {e : Nat} (target : Bytes) (hf : c.fault = none) (hn : n.length ≤ NAME_MAX)
    (hd : sh.fs.leaf e = some .dir) (he : sh.fs.entry e n = none) :
    ∃ i, (call cfg c sh (.symlinkat target e n)).2 = .ok i := by
  have hcheck : sh.fs.checkAt e n = .ok () := by
    unfold checkAt
    rw [if_neg (by omega), if_pos hd]
  exact ⟨sh.fs.inodes.length, by simp [call, hf, exec, hcheck, he, Bind.bind, Except.bind]⟩

/-- A link that can be made is made. -/
theorem FlowStep.linkMake {j : Job} {target : Bytes} (hs : fl.netStep cfg c sh = some (sh', fl'))
    (hn : fl.net = .at j (.linkMake target)) (hf : c.fault = none) (hz : 0 ∉ target) (hlen : j.name.length ≤ NAME_MAX)
    (hd : sh.fs.leaf j.dir = some .dir) (he : sh.fs.entry j.dir j.name = none) :
    ∃ i, sh'.fs.entry j.dir j.name = some i ∧ sh'.fs.leaf i = some (.symlink target) := by
  have hreq : netRequest cfg c fl.net = some (.symlinkat target j.dir j.name) := by
    rw [hn]
    simp [netRequest, hz]
  have hmade : ∃ i, (call cfg c sh (.symlinkat target j.dir j.name)).2 = .ok i := call_symlinkat target hf hlen hd he
  obtain ⟨i, hok⟩ := hmade
  obtain ⟨-, hc⟩ := symlinkat_creates (call_ok hok).2.exec
  unfold netStep at hs
  rw [hreq] at hs
  simp only [netResume, hn, hok, Option.some.injEq] at hs
  obtain ⟨rfl, -⟩ := Prod.mk.inj hs
  exact ⟨_, by rw [hc.entry, if_pos ⟨rfl, rfl⟩], hc.leaf_new⟩

theorem FlowStep.linkUnlink {j : Job} {target : Bytes} (hs : fl.netStep cfg c sh = some (sh', fl'))
    (hn : fl.net = .at j (.linkUnlink target)) : fl'.net = .at j (.linkMake target) := by
  have hreq : netRequest cfg c fl.net = some (.unlinkat j.dir j.name) := by rw [hn]; rfl
  unfold netStep at hs
  rw [hreq] at hs
  simp only [netResume, hn, Option.some.injEq] at hs
  obtain ⟨-, rfl⟩ := Prod.mk.inj hs
  rfl

/-- A flow that is about to make its link goes on with that, or has made it. -/
theorem Linking.flowStep {p : List Name} (h : Linking s d n) (hD : Disk cfg fs0 s) (hB : Brief s) (hf : ∀ i, FlowInv cfg (s.flow i))
    (hs : FlowStep cfg c s.sh (s.flow i) sh' fl')
    (hlink : ∀ j target, fl'.net ≠ (s.flow i).net → (s.flow i).net = .at j (.linkMake target) → j.dir = d → j.name = n →
      c.fault = none ∧ 0 ∉ target ∧ s.sh.fs.entry j.dir j.name = none) : Held (s.put i (sh', fl')) d n p := by
  obtain ⟨k, j, target, hn, rfl, rfl⟩ := h
  by_cases hk : k = i
  · subst hk
    by_cases hmoved : fl'.net = (s.flow k).net
    · exact .inr ⟨k, j, target, by rw [put_flow, hmoved]; exact hn, rfl, rfl⟩
    · cases hs with
      | hash _ hs =>
        obtain ⟨_, _, _, _, _, _, rfl⟩ := hashStep_only hs
        exact absurd rfl hmoved
      | writer hs =>
        obtain ⟨_, _, _, _, _, _, rfl⟩ := writerStep_only hs
        exact absurd rfl hmoved
      | net hs =>
        rcases hn with hn | hn
        · exact .inr ⟨k, j, target, by rw [put_flow]; exact .inr (FlowStep.linkUnlink hs hn), rfl, rfl⟩
        · obtain ⟨hfault, hz, hfree⟩ := hlink j target hmoved hn rfl rfl
          have hp : Handle s.sh.fs cfg.root j.dir j.parents := by
            have := (hD.placed k).net
            rwa [hn] at this
          have hlen := hB.job (hf k) hn
          obtain ⟨r, hr, hl⟩ := FlowStep.linkMake hs hn hfault hz (by omega) hp.dir hfree
          exact .inl ⟨r, hr, .inl (show sh'.fs.leaf r ≠ some .dir by rw [hl]; simp)⟩
  · exact .inr ⟨k, j, target, by rw [put_flow_ne _ _ hk]; exact hn, rfl, rfl⟩

/-- What had a name before the session has it, or something has taken its place, or is about to. -/
theorem Held.flowStep {p : List Name} (h : Held s d n p) (hr0 : fs0.entry d n = some r) (hK : Known cfg fs0 s) (hB : Brief s)
    (hf : ∀ i, FlowInv cfg (s.flow i)) (hs : FlowStep cfg c s.sh (s.flow i) sh' fl')
    (hlink : ∀ j target, fl'.net ≠ (s.flow i).net → (s.flow i).net = .at j (.linkMake target) → j.dir = d → j.name = n →
      c.fault = none ∧ 0 ∉ target ∧ s.sh.fs.entry j.dir j.name = none) : Held (s.put i (sh', fl')) d n p := by
  have he := hs.effect
  have hg := put_grows hs
  have hscratch : ∀ {k t}, t ∈ (s.flow k).log.scratches → d = t.parent → n ≠ t.name := by
    rintro k t ht rfl rfl
    rw [hK.old.free ht] at hr0
    cases hr0
  rcases h with ⟨r', hb, hr'⟩ | hl
  · rcases he.unbinds hb with hb' | hu
    · refine .inl ⟨r', hb', hr'.imp (fun hdir => ?_) fun ⟨k, e, hx, hk⟩ => ⟨k, e, (hg k).heard.subset hx, hk⟩⟩
      exact he.leaf_plain (hK.tree.range hb) hdir
    · cases hu with
      | @clear j hc hd hn _ =>
        subst hd hn
        rcases hc with ⟨target, hn⟩ | hn
        · by_cases hmoved : fl'.net = (s.flow i).net
          · exact .inr ⟨i, j, target, by rw [put_flow, hmoved]; exact .inl hn, rfl, rfl⟩
          · cases hs with
            | hash _ hs =>
              obtain ⟨_, _, _, _, _, _, rfl⟩ := hashStep_only hs
              exact absurd rfl hmoved
            | writer hs =>
              obtain ⟨_, _, _, _, _, _, rfl⟩ := writerStep_only hs
              exact absurd rfl hmoved
            | net hs => exact .inr ⟨i, j, target, by rw [put_flow]; exact .inr (FlowStep.linkUnlink hs hn), rfl, rfl⟩
        · -- a name this short is never written in place
          have hpc := (hf i).net.pc
          rw [hn] at hpc
          have := hB.job (hf i) hn
          have := hpc.2.2.2
          omega
      | moved hw hd hn _ _ =>
        obtain ⟨ht, hts, -⟩ := (hf i).rename_token hw
        exact absurd hn (hscratch (mem_scratches.2 ⟨(hf i).token_born ht, hts⟩) hd)
      | @replaced t hw hd hh hent =>
        obtain ⟨ht, hts, -⟩ := (hf i).rename_token hw
        have hlive := hK.live ht hts
        rw [← hd] at hlive
        obtain ⟨b, hb⟩ := he.file (hK.file ((hf i).token_born ht)).choose_spec
        exact .inl ⟨t.file, hent.trans hlive, .inl (show sh'.fs.leaf t.file ≠ some .dir by rw [hb]; simp)⟩
      | @undo t ht hd hn _ _ =>
        have hb := (hf i).token_born ht
        exact absurd hn (hscratch (mem_scratches.2 ⟨hb, hB.scratch (hf i) hb⟩) hd)
      | late hw hd hn _ =>
        obtain ⟨hk, hts⟩ := (hf i).late_token hw
        exact absurd hn (hscratch (mem_scratches.2 ⟨(hf i).kept_born hk, hts⟩) hd)
  · exact hl.flowStep hK.toDisk hB hf hs hlink

theorem Held.aside {p : List Name} (h : Held s d n p) (ha : Aside s s') : Held s' d n p := by
  unfold Held Linking at *
  simp only [ha.fs, ha.log, ha.net]
  exact h

theorem held_inv {ps : List Name} (ht : fs0.DirTree cfg.root) (h : Reach (step cfg) (Links cfg fs0) (.init cfg fs0) s)
    (hd0 : Handle fs0 cfg.root d ps) (hr0 : fs0.entry d n = some r) (hl0 : fs0.leaf r ≠ some .dir) :
    Drawn s ∧ Brief s → Held s d n (ps ++ [n]) := by
  refine h.invariant_while (I := fun s => Held s d n (ps ++ [n])) (P := fun s => Drawn s ∧ Brief s) (.inl ⟨r, hr0, .inl hl0⟩)
    (fun s a s' hst hP => ⟨hP.1.mono (step_grows hst), Brief.mono hP.2 (step_grows hst)⟩) ?_
  intro s a s' hr hP _ ih hst ho
  have hK := known ht hr hP.1
  rcases step_faults hst with ⟨i, c, sh', fl', -, hfault, hf, rfl⟩ | ⟨ha, -⟩
  · refine ih.flowStep hr0 hK hP.2 (fun i => flow_inv hr i) hf fun j target hne hn hdir hname => ?_
    rcases step_net hst i with hsame | ⟨c', rfl⟩
    · rw [put_flow] at hsame
      exact absurd hsame hne
    · have hp : Handle s.sh.fs cfg.root j.dir j.parents := by
        have := (hK.placed i).net
        rwa [hn] at this
      have hpath : j.comps = ps ++ [n] := by
        rw [Job.comps, hname, hK.tree.inj hp (by rw [hdir]; exact hd0.mono hK.dirs)]
      obtain ⟨h1, h2⟩ := ho i c' j target r rfl hn (by rw [hpath, hd0.resolve]; exact hr0) hl0
      exact ⟨hfault.symm.trans h1, h2⟩
  · exact ih.aside ha

/-- When `accept_one` has returned no flow is in the middle of anything. -/
theorem not_linking {ok : State → Act → State → Prop} (h : Reach (step cfg) ok (.init cfg fs0) s)
    {res : Except Err Stats} (hr : s.main = .returned res) : ¬ Linking s d n := by
  rintro ⟨k, j, target, hn, -⟩
  have hfin : (s.flow k).net = .openRoot ∨ ∃ r, (s.flow k).net = .finished r := by
    by_cases hk : k < cfg.flows
    · have hph := phase_ok h
      rw [hr] at hph
      cases res with
      | ok st => exact .inr (result_net (by rw [hph k hk]; rfl))
      | error e =>
        rcases hph with hu | hj
        · obtain ⟨w, eof, he⟩ := hu.flow k
          exact .inl (by rw [he]; rfl)
        · exact .inr (result_net (hj k hk))
    · exact .inl (net_idle h (by omega))
  rcases hfin with hfin | ⟨r, hfin⟩ <;> rw [hfin] at hn <;> rcases hn with hn | hn <;> cases hn

/-! ## Entries survive -/

/-- Inode `r` is what a complete entry of the stream for path `p` describes. -/
inductive Arrived (cfg : Cfg) (s : State) (p : List Name) (r : Nat) : Prop
  | file {k : Nat} {fr : Frame} : Carries cfg (s.flow k).log.got fr → fr.entry.kind = .file → fr.comps = p →
      s.sh.fs.leaf r = some (.file fr.payload) → Arrived cfg s p r
  | symlink {k : Nat} {fr : Frame} : Carries cfg (s.flow k).log.got fr → fr.entry.kind = .symlink → fr.comps = p →
      s.sh.fs.leaf r = some (.symlink fr.payload) → Arrived cfg s p r
  | dir {k : Nat} {e : Entry} : (e, p) ∈ (s.flow k).log.heard → e.kind = .dir → s.sh.fs.leaf r = some .dir →
      Arrived cfg s p r

/-- Path `p` leads to what it led to, which holds what it held, or to a complete entry of the stream. -/
def Survives (cfg : Cfg) (fs0 : Fs) (s : State) (p : List Name) : Prop :=
  ∃ r, resolve s.sh.fs.entry cfg.root p = some r ∧
    ((resolve fs0.entry cfg.root p = some r ∧ s.sh.fs.leaf r = fs0.leaf r) ∨ Arrived cfg s p r)

/-- Every link can be made, computed. -/
def links (s : State) (a : Act) (_ : State) : Bool :=
  match a with
  | .net i c =>
    match (s.flow i).net with
    | .at j (.linkMake target) => decide (c.fault = none ∧ 0 ∉ target ∧ s.sh.fs.entry j.dir j.name = none)
    | _ => true
  | _ => true

theorem links_iff {a : Act} (h : links s a s' = true) : Links cfg fs0 s a s' := by
  rintro i c j target r rfl hn - -
  simp only [links, hn] at h
  exact of_decide_eq_true h

/-- A session that has failed, seen at its last state: names are short, and none drawn is an entry's or drawn twice. -/
def Abandoned (cfg : Cfg) (e : Err) (s : State) : Prop :=
  s.main = .returned (.error e) ∧
    (∀ i < cfg.flows, ∀ x ∈ (s.flow i).log.heard, (x.2.getLastD []).length + 21 ≤ NAME_MAX) ∧
    (∀ i < cfg.flows, ∀ k < cfg.flows, ∀ t ∈ (s.flow i).log.scratches, ∀ x ∈ (s.flow k).log.heard,
      t.name ≠ x.2.getLastD []) ∧
    ((List.range cfg.flows).flatMap fun i => (s.flow i).log.scratches.map fun t => (t.parent, t.name)).Nodup

instance (cfg : Cfg) (e : Err) (s : State) : Decidable (Abandoned cfg e s) := by unfold Abandoned; infer_instance

theorem Abandoned.assumed {ok : State → Act → State → Prop} {e : Err} (h : Abandoned cfg e s)
    (hr : Reach (step cfg) ok (.init cfg fs0) s) : Drawn s ∧ Brief s := by
  refine ⟨.of_reach hr h.2.2.1 h.2.2.2, fun {i x} hx => ?_⟩
  exact forall_log (P := fun l => ∀ x ∈ l.heard, (x.2.getLastD []).length + 21 ≤ NAME_MAX) hr (fun _ hx => by cases hx)
    h.2.1 i x hx

/-- A link to `b` takes the place of the file `a`, and then the stream ends. -/
def relinked : List Act := List.flatten [opening single, [.deliver 0 ((entryOf .symlink pathA 1).encode ++ [98])],
  netRuns 0 7, [.cut 0 0], netRuns 0 1, writerRuns 0 1, [.main plain]]

/-- A link whose target is a NUL is announced for `a`. -/
def unlinked : List Act := List.flatten [opening single, [.deliver 0 ((entryOf .symlink pathA 1).encode ++ [0])],
  netRuns 0 6, writerRuns 0 1, [.main plain]]

end Thunderflash.Recv
