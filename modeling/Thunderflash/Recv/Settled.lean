/-
Every file created is settled once: when the session is over it is committed under its final name
and still there, or it is gone, and then the session has failed.
-/
import Thunderflash.Recv.Modes

namespace Thunderflash.Recv

open Codec Posix Fs Lts

variable {cfg : Cfg} {c : Choice} {sh sh' : Shared} {fl fl' : Flow} {s s' : State} {fs0 : Fs} {t u : InFlight} {j : Job}
  {i k l : Nat}

/-! ## Distinct paths -/

/-- The entries heard have pairwise distinct paths, and no scratch name drawn is an entry's name. -/
structure Unique (s : State) : Prop where
  paths : Distinct fun i => (s.flow i).log.heard.map Prod.snd
  names : ∀ {i k t x}, t ∈ (s.flow i).log.scratches → x ∈ (s.flow k).log.heard → t.name ≠ x.2.getLastD []

theorem Unique.mono (h : Unique s') (hg : ∀ i, (s.flow i).log.Grows (s'.flow i).log) : Unique s :=
  ⟨h.paths.of_sublist fun i => ((hg i).heard.sublist.map _),
    fun ht hx => h.names ((hg _).scratches.subset ht) ((hg _).heard.subset hx)⟩

theorem Unique.of_reach {ok : State → Act → State → Prop} (h : Reach (step cfg) ok (.init cfg fs0) s)
    (hn : ∀ i < cfg.flows, ∀ k < cfg.flows, ∀ t ∈ (s.flow i).log.scratches, ∀ x ∈ (s.flow k).log.heard,
      t.name ≠ x.2.getLastD [])
    (hd : ((List.range cfg.flows).flatMap fun i => (s.flow i).log.heard.map Prod.snd).Nodup) : Unique s :=
  ⟨.of_range (fun i hi => by rw [log_idle h hi]; rfl) hd, names_of_reach h hn⟩

/-- A scratch name tells the name it was drawn for. -/
theorem scratchName_inj {n m : Name} {x y : UInt32} (h : scratchName n x = scratchName m y) : n = m := by
  unfold scratchName at h
  simp only [List.append_assoc, List.cons_append, List.nil_append] at h
  obtain ⟨-, h⟩ := List.cons.inj h
  exact (List.append_inj' h (by simp [hex8])).1

theorem FlowInv.born_paths (h : FlowInv cfg fl) (hn : (fl.log.heard.map Prod.snd).Nodup) :
    (fl.log.born.map InFlight.path).Nodup := h.net.log.born.nodup hn

/-- A file is in flight, committed or dropped, and only one of these. -/
theorem FlowInv.once (h : FlowInv cfg fl) (hn : (fl.log.heard.map Prod.snd).Nodup) :
    (fl.tokens ++ (fl.log.kept ++ fl.log.undone)).Nodup :=
  h.files.nodup_iff.2 (h.born_paths hn).of_map

/-- Before its file is created an entry's path is no created file's. -/
theorem FlowInv.new_path {st : Stage} (h : FlowInv cfg fl) (hn : (fl.log.heard.map Prod.snd).Nodup)
    (hst : fl.net = .at j st) (hq : Quiet cfg fl.log) (ht : t ∈ fl.log.born) : t.path ≠ j.comps := by
  have hpc := h.net.pc
  rw [hst] at hpc
  rw [hpc.1.heard, List.map_append, List.map_map] at hn
  intro he
  have hmem := (hq.born_sublist h.net.log).subset (List.mem_map_of_mem (f := InFlight.path) ht)
  rw [he] at hmem
  exact (List.nodup_append.1 hn).2.2 _ hmem _ (by simp) rfl

theorem Unique.born_eq (hU : Unique s) (hf : ∀ i, FlowInv cfg (s.flow i)) (ht : t ∈ (s.flow k).log.born)
    (hu : u ∈ (s.flow l).log.born) (he : t.path = u.path) : k = l ∧ t = u :=
  Distinct.eq (hU.paths.of_sublist fun i => (hf i).net.log.born) ht hu he

theorem Unique.new_path {st : Stage} (hU : Unique s) (hf : ∀ i, FlowInv cfg (s.flow i)) (hst : (s.flow i).net = .at j st)
    (hq : Quiet cfg (s.flow i).log) (ht : t ∈ (s.flow k).log.born) : t.path ≠ j.comps := by
  intro he
  obtain ⟨x, hx, hxp⟩ := (hf k).born_heard ht
  have hj := (hf i).heard_job hst
  have hki : k = i := hU.paths.apart (x := j.comps) (List.mem_map.2 ⟨x, hx, hxp.trans he⟩) (List.mem_map.2 ⟨_, hj, rfl⟩)
  subst hki
  exact (hf k).new_path (hU.paths.nodup k) hst hq ht he

theorem FlowInv.scratch_name (h : FlowInv cfg fl) (ht : t ∈ fl.log.scratches) : ∃ draw, t.name = scratchName t.target draw := by
  obtain ⟨hb, hs⟩ := mem_scratches.1 ht
  obtain ⟨j, hj⟩ := h.net.log.name t hb
  rcases hj.name with ⟨draw, -, hn⟩ | ⟨hf, -, -⟩
  · exact ⟨draw, by rw [hj.target]; exact hn⟩
  · simp [InFlight.scratch, hf] at hs

/-- With distinct paths no scratch name is drawn twice. -/
theorem Unique.drawn (hU : Unique (s.put i (sh', fl'))) (hf : ∀ i, FlowInv cfg (s.flow i)) (hD : Disk cfg fs0 s)
    (hd : Drawn s) (hs : FlowStep cfg c s.sh (s.flow i) sh' fl') : Drawn (s.put i (sh', fl')) := by
  refine ⟨hU.names, ?_⟩
  have hsame : fl'.log.scratches = (s.flow i).log.scratches →
      Distinct fun k => ((s.put i (sh', fl')).flow k).log.scratches.map fun t => (t.parent, t.name) := by
    intro hb
    refine hd.new.of_sublist fun k => ?_
    by_cases hk : k = i
    · subst hk; rw [put_flow, hb]
    · rw [put_flow_ne _ _ hk]
  rcases hs.effect.born with ⟨hb, -⟩ | ⟨t, ho, hb, -⟩
  · exact hsame (by unfold Log.scratches; rw [hb])
  · cases hts : t.scratch with
    | false => exact hsame (by unfold Log.scratches; rw [hb]; simp [hts])
    | true =>
      obtain ⟨j, tries, hn, rfl, -⟩ := ho.of_scratch hts
      refine hd.new.push (i := i) (x := (j.dir, scratchName j.name c.draw)) ?_ (fun k hk => by rw [put_flow_ne _ _ hk])
        fun k hk => ?_
      · rw [put_flow]
        unfold Log.scratches
        rw [hb, List.filter_append, List.map_append, List.filter_cons_of_pos hts]
        rfl
      · -- it would be drawn for the same path
        obtain ⟨u, hu, hx⟩ := List.mem_map.1 hk
        obtain ⟨hpar, hname⟩ := Prod.mk.inj hx
        have hub := (mem_scratches.1 hu).1
        obtain ⟨draw, hdraw⟩ := (hf k).scratch_name hu
        have hplace := (hD.placed k).born u hub
        have hjob := (hD.placed i).net
        have hpc := (hf i).net.pc
        rw [hn] at hjob hpc
        rw [hpar] at hplace
        refine (hU.mono (put_grows hs)).new_path hf hn hpc.2.1.toQuiet hub ?_
        rw [InFlight.path, hD.tree.inj hplace hjob, scratchName_inj (hdraw.symm.trans hname), Job.comps]

/-- What is known of the disk holds in every state whose entries have distinct paths. -/
theorem unique_disk {ok : State → Act → State → Prop} (ht : fs0.DirTree cfg.root)
    (h : Reach (step cfg) ok (.init cfg fs0) s) : Unique s → Drawn s ∧ Disk cfg fs0 s := by
  refine h.invariant_while (I := fun s => Drawn s ∧ Disk cfg fs0 s) (P := Unique) ⟨?_, .init ht⟩
    (fun s a s' hst hd => hd.mono (step_grows hst)) ?_
  · refine ⟨fun {i k t x} hm => ?_, fun i => ?_, fun {i k x} hx => ?_⟩
    · cases hm
    · exact List.nodup_nil
    · cases hx
  · intro s a s' hr _ hU ⟨hd, hD⟩ hst _
    have hf := fun i => flow_inv hr i
    rcases step_cases hst with ⟨i, c, sh', fl', -, hs, rfl⟩ | ⟨ha, -⟩
    · have hd' := hU.drawn hf hD hd hs
      exact ⟨hd', hD.flowStep hf hd' hs⟩
    · refine ⟨⟨fun {i k t x} => ?_, ?_⟩, hD.aside ha⟩
      · rw [ha.log, ha.log]; exact hd.names
      · simp only [ha.log]; exact hd.new

/-! ## Settling a file -/

theorem entry_meta {fs fs' : Fs} {r : Nat} (h : Touch fs fs' r) : fs'.entry = fs.entry := by
  funext d n; exact h.entry d n

/-- How a file comes to be committed: in place, or by its rename. -/
theorem Effect.kept_cases (h : Effect cfg c sh fl sh' fl') (ht : t ∈ fl'.log.kept) : t ∈ fl.log.kept ∨
    (t ∈ fl.tokens ∧ ((t.scratch = false ∧ sh'.fs.entry = sh.fs.entry) ∨
      ∃ final r, fl.writer = .rename t final ∧ Did cfg c sh (.renameat t.parent t.name final) r sh')) := by
  have hnone : ∀ {born undone}, Hands fl fl' born [] undone → t ∈ fl.log.kept := by
    intro born undone hh
    rw [hh.kept, List.append_nil] at ht
    exact ht
  have hone : ∀ {u}, Hands fl fl' [] [u] [] → t ∈ fl.log.kept ∨ (t = u ∧ t ∈ fl.tokens) := by
    intro u hh
    rw [hh.kept, List.mem_append, List.mem_singleton] at ht
    refine ht.imp_right fun he => ⟨he, ?_⟩
    have := hh.tokens.subset (List.mem_append_right _ (List.mem_append_left _ (List.mem_singleton_self u)))
    rw [he]; simpa using this
  have hplace : ∀ {u : InFlight}, u.finalName = none → u.scratch = false := fun hu => by rw [InFlight.scratch, hu]; rfl
  cases h with
  | keep hfs _ hu hh =>
    rcases hone hh with hk | ⟨rfl, hk⟩
    · exact .inl hk
    · exact .inr ⟨hk, .inl ⟨hplace hu, by rw [hfs]⟩⟩
  | stamp hd _ hh =>
    rcases hh with hh | ⟨hu, hh⟩
    · exact .inl (hnone hh)
    · rcases hone hh with hk | ⟨rfl, hk⟩
      · exact .inl hk
      · exact .inr ⟨hk, .inl ⟨hplace hu, entry_meta (futimens_meta hd.exec).1.toTouch⟩⟩
  | commit hd hw hh =>
    rcases hone hh with hk | ⟨rfl, hk⟩
    · exact .inl hk
    · exact .inr ⟨hk, .inr ⟨_, _, hw, hd⟩⟩
  | _ => exact .inl (hnone (by assumption))

/-- How a file comes to be dropped: its name is unlinked, or that fails. -/
theorem Effect.undone_cases (h : Effect cfg c sh fl sh' fl') (ht : t ∈ fl'.log.undone) : t ∈ fl.log.undone ∨
    (t ∈ fl.tokens ∧ fl'.log.undone ≠ fl.log.undone ∧ ((∃ r, Did cfg c sh (.unlinkat t.parent t.name) r sh') ∨
      ∃ e, (call cfg c sh (.unlinkat t.parent t.name)).2 = .error e)) := by
  have hnone : ∀ {born kept}, Hands fl fl' born kept [] → t ∈ fl.log.undone := by
    intro born kept hh
    rw [hh.undone, List.append_nil] at ht
    exact ht
  have hone : ∀ {u}, Hands fl fl' [] [] [u] → t ∈ fl.log.undone ∨ (t = u ∧ fl'.log.undone ≠ fl.log.undone) := by
    intro u hh
    rw [hh.undone, List.mem_append, List.mem_singleton] at ht
    exact ht.imp_right fun he => ⟨he, by rw [hh.undone]; simp⟩
  cases h with
  | leave _ hu he hh =>
    rcases hone hh with hk | ⟨rfl, hk⟩
    · exact .inl hk
    · exact .inr ⟨hu, hk, .inr he⟩
  | undo hd hu hh =>
    rcases hone hh with hk | ⟨rfl, hk⟩
    · exact .inl hk
    · exact .inr ⟨hu, hk, .inl ⟨_, hd⟩⟩
  | stamp _ _ hh => rcases hh with hh | ⟨-, hh⟩ <;> exact .inl (hnone hh)
  | _ => exact .inl (hnone (by assumption))

/-- An unlink of a file's name goes through unless the environment fails it. -/
theorem call_unlink {d r : Nat} {n : Name} {b : Bytes} (hf : c.fault = none) (hn : n.length ≤ NAME_MAX)
    (he : sh.fs.entry d n = some r) (hl : sh.fs.leaf r = some (.file b)) :
    ∃ i, (call cfg c sh (.unlinkat d n)).2 = .ok i := by
  have hd := dir_of_entry he
  have hcheck : sh.fs.checkAt d n = .ok () := by
    unfold Fs.checkAt
    rw [if_neg (by omega), if_pos hd]
  refine ⟨r, ?_⟩
  simp [call, hf, Fs.exec, hcheck, he, hl, Bind.bind, Except.bind]

/-- The step drops no file, or its unlink meets no failure. -/
def Dropping (s : State) (a : Act) (s' : State) : Prop :=
  (∃ i, (s'.flow i).log.undone ≠ (s.flow i).log.undone) → a.fault = none

/-! ## The invariant -/

structure Settled (s : State) : Prop where
  fits : ∀ {i t}, t ∈ (s.flow i).log.born → t.name.length ≤ NAME_MAX
  /-- A file committed, or written in place, is under its final name, -/
  landed : ∀ {i t}, t ∈ (s.flow i).log.kept ∨ (t ∈ (s.flow i).tokens ∧ t.scratch = false) →
    s.sh.fs.entry t.parent t.target = some t.file
  /-- and one dropped is not under either of its names. -/
  gone : ∀ {i t}, t ∈ (s.flow i).log.undone →
    s.sh.fs.entry t.parent t.name ≠ some t.file ∧ s.sh.fs.entry t.parent t.target ≠ some t.file

theorem Settled.init (cfg : Cfg) (fs0 : Fs) : Settled (.init cfg fs0) where
  fits ht := by cases ht
  landed ht := by
    rcases ht with ht | ⟨ht, -⟩
    · cases ht
    · have := (FlowInv.init cfg).token_born ht
      cases this
  gone ht := by cases ht

theorem Settled.aside (h : Settled s) (ha : Aside s s') : Settled s' where
  fits := by intro i t; rw [ha.log]; exact h.fits
  landed := by intro i t; rw [ha.log, ha.tokens, ha.fs]; exact h.landed
  gone := by intro i t; rw [ha.log, ha.fs]; exact h.gone

/-- Files in one directory under one final name are the same file. -/
theorem Disk.same_place (hD : Disk cfg fs0 s) (hU : Unique s) (hf : ∀ i, FlowInv cfg (s.flow i))
    (ht : t ∈ (s.flow k).log.born) (hu : u ∈ (s.flow l).log.born) (hp : t.parent = u.parent) (hn : t.target = u.target) :
    k = l ∧ t = u := by
  refine hU.born_eq hf ht hu ?_
  have h1 := (hD.placed k).born t ht
  have h2 := (hD.placed l).born u hu
  rw [hp] at h1
  rw [InFlight.path, InFlight.path, hD.tree.inj h1 h2, hn]

theorem Disk.token_name (hD : Disk cfg fs0 s) (h : Settled s) (ht : t ∈ (s.flow k).tokens) :
    s.sh.fs.entry t.parent t.name = some t.file := by
  cases hs : t.scratch with
  | true => exact hD.live ht hs
  | false =>
    have := h.landed (.inr ⟨ht, hs⟩)
    rwa [target_of_not_scratch hs] at this

/-- A scratch name is longer than the name it is drawn for. -/
theorem FlowInv.name_ne (h : FlowInv cfg fl) (ht : t ∈ fl.log.scratches) : t.name ≠ t.target := by
  obtain ⟨draw, hn⟩ := h.scratch_name ht
  intro he
  have := congrArg List.length (hn.symm.trans he)
  rw [Flow.length_scratchName] at this
  omega

section Step

variable (h : Settled s) (hD : Disk cfg fs0 s) (hU : Unique (s.put i (sh', fl'))) (hf : ∀ i, FlowInv cfg (s.flow i))
  (hs : FlowStep cfg c s.sh (s.flow i) sh' fl')

include h hD hU hf hs

omit h in
/-- Nobody takes the final name from a file that keeps its place. -/
theorem Disk.final_unbinds (ht : t ∈ (s.flow k).log.kept ∨ (t ∈ (s.flow k).tokens ∧ t.scratch = false))
    (hu : Unbinds cfg c s.sh (s.flow i) sh' fl' t.parent t.target) : k = i ∧ t ∈ fl'.log.undone := by
  have hU0 := hU.mono (put_grows hs)
  have htb : t ∈ (s.flow k).log.born := ht.elim (hf k).kept_born fun ht => (hf k).token_born ht.1
  have hname : ∀ {u}, u ∈ (s.flow i).log.scratches → t.target ≠ u.name := by
    intro u hu he
    obtain ⟨x, hx, hlast⟩ := (hf k).target_heard htb
    exact hU0.names hu hx (he.symm.trans hlast.symm)
  cases hu with
  | @clear j hc hd hn _ =>
    have hplaced := (hD.placed i).net
    have hpc := (hf i).net.pc
    have hj : ∃ st, (s.flow i).net = .at j st ∧ Handle s.sh.fs cfg.root j.dir j.parents ∧ Quiet cfg (s.flow i).log := by
      rcases hc with ⟨target, hc⟩ | hc <;> rw [hc] at hplaced hpc
      · exact ⟨_, hc, hplaced, hpc.2.1⟩
      · exact ⟨_, hc, hplaced, hpc.2.1.toQuiet⟩
    obtain ⟨st, hst, hp, hq⟩ := hj
    have hp' := (hD.placed k).born t htb
    rw [hd] at hp'
    refine absurd ?_ (hU0.new_path hf hst hq htb)
    rw [InFlight.path, hD.tree.inj hp' hp, hn, Job.comps]
  | @moved u final hw _ hn _ _ =>
    obtain ⟨hut, hus, -⟩ := (hf i).rename_token hw
    exact absurd hn (hname (mem_scratches.2 ⟨(hf i).token_born hut, hus⟩))
  | @replaced u hw hd _ _ =>
    obtain ⟨hut, hus, htar⟩ := (hf i).rename_token hw
    obtain ⟨rfl, rfl⟩ := hD.same_place hU0 hf htb ((hf i).token_born hut) hd htar.symm
    rcases ht with hk | ⟨-, hns⟩
    · have hone := (hf k).once (hU0.paths.nodup k)
      exact absurd rfl ((List.nodup_append.1 hone).2.2 t hut t (List.mem_append_left _ hk))
    · rw [hus] at hns; cases hns
  | @undo u hut hd hn hh _ =>
    have hub := (hf i).token_born hut
    cases hus : u.scratch with
    | true => exact absurd hn (hname (mem_scratches.2 ⟨hub, hus⟩))
    | false =>
      obtain ⟨rfl, rfl⟩ := hD.same_place hU0 hf htb hub hd (hn.trans (target_of_not_scratch hus).symm)
      exact ⟨rfl, by rw [hh.undone]; simp⟩
  | @late u e hw _ hn _ =>
    obtain ⟨hk, hus⟩ := (hf i).late_token hw
    exact absurd hn (hname (mem_scratches.2 ⟨(hf i).kept_born hk, hus⟩))

theorem Settled.landed_step {t : InFlight} (ht : t ∈ ((s.put i (sh', fl')).flow k).log.kept ∨
    (t ∈ ((s.put i (sh', fl')).flow k).tokens ∧ t.scratch = false)) : sh'.fs.entry t.parent t.target = some t.file := by
  have he := hs.effect
  -- one that was in place before stays there
  have hold : t ∈ (s.flow k).log.kept ∨ (t ∈ (s.flow k).tokens ∧ t.scratch = false) →
      sh'.fs.entry t.parent t.target = some t.file := by
    intro hb
    rcases he.unbinds (h.landed hb) with hl | hu
    · exact hl
    · obtain ⟨rfl, hgone⟩ := hD.final_unbinds hU hf hs hb hu
      rw [put_flow] at ht
      have hone := (hs.inv (hf k)).once (by have := hU.paths.nodup k; rwa [put_flow] at this)
      obtain ⟨-, h2, h3⟩ := List.nodup_append.1 hone
      rcases ht with hk | ⟨hk, -⟩
      · exact absurd rfl ((List.nodup_append.1 h2).2.2 t hk t hgone)
      · exact absurd rfl (h3 t hk t (List.mem_append_right _ hgone))
  rcases ht with hk | ⟨hk, hns⟩
  · by_cases hki : k = i
    · subst hki
      rw [put_flow] at hk
      rcases he.kept_cases hk with hk | ⟨htok, ⟨hns, -⟩ | ⟨final, r, hw, hd⟩⟩
      · exact hold (.inl hk)
      · exact hold (.inr ⟨htok, hns⟩)
      · obtain ⟨-, hts, htar⟩ := (hf k).rename_token hw
        obtain ⟨-, hdir, hsrc, ⟨hdst, hfs⟩ | ⟨hfs, -, -⟩⟩ := exec_renameat hd.exec
        all_goals
          rw [hD.live htok hts] at hsrc
          cases hsrc
          rw [hfs, htar]
        · exact hdst
        · rw [entry_move hdir, if_pos ⟨rfl, rfl⟩]
    · rw [put_flow_ne _ _ hki] at hk
      exact hold (.inl hk)
  · rcases put_tokens he hk with hk | ⟨-, ho⟩
    · exact hold (.inr ⟨hk, hns⟩)
    · cases ho with
      | draw _ htd => subst htd; cases hns
      | place _ htd hc => subst htd; rw [hc.entry]; simp [Flow.placedFile, InFlight.target]
      | reuse _ htd hent hl hfs => subst htd; rw [hfs, entry_setFile hl]; exact hent

theorem Settled.gone_step (hdrop : fl'.log.undone ≠ (s.flow i).log.undone → c.fault = none)
    (ht : t ∈ ((s.put i (sh', fl')).flow k).log.undone) :
    sh'.fs.entry t.parent t.name ≠ some t.file ∧ sh'.fs.entry t.parent t.target ≠ some t.file := by
  have he := hs.effect
  have hU0 := hU.mono (put_grows hs)
  -- a file that was dropped before is not found again
  have hold : ∀ {n}, t ∈ (s.flow k).log.undone → s.sh.fs.entry t.parent n ≠ some t.file →
      sh'.fs.entry t.parent n ≠ some t.file := by
    intro n hk hne hb
    have htb := (hf k).undone_born hk
    have hlt := hD.lt htb
    rcases he.binds hb with hb | hb
    · exact hne hb
    · cases hb with
      | @commit u hw _ hent _ =>
        obtain ⟨hut, hus, -⟩ := (hf i).rename_token hw
        have hub := mem_scratches.2 ⟨(hf i).token_born hut, hus⟩
        rw [hD.live hut hus] at hent
        have hfile := Option.some.inj hent
        obtain ⟨rfl, rfl⟩ := hD.apart.eq hub (mem_scratches.2 ⟨htb, hD.mixed hub htb hfile⟩) hfile
        have hone := (hf i).once (hU0.paths.nodup i)
        exact (List.nodup_append.1 hone).2.2 u hut u (List.mem_append_right _ hk) rfl
      | dir _ _ _ _ hi | walk _ _ _ hi | link _ _ _ _ hi | draw _ _ _ _ hi | place _ _ _ _ hi => omega
  by_cases hki : k = i
  · subst hki
    rw [put_flow] at ht
    rcases he.undone_cases ht with hk | ⟨htok, hne, hcall⟩
    · exact ⟨hold hk (h.gone hk).1, hold hk (h.gone hk).2⟩
    · have hname := hD.token_name h htok
      have htb := (hf k).token_born htok
      obtain ⟨b, hb⟩ := hD.file htb
      rcases hcall with ⟨r, hd⟩ | ⟨e, hfail⟩
      · obtain ⟨hdir, -, -, hfs⟩ := exec_unlinkat hd.exec
        have hent : ∀ x m, sh'.fs.entry x m = if x = t.parent ∧ m = t.name then none else s.sh.fs.entry x m := by
          intro x m
          rw [hfs, entry_unlink hdir]
        refine ⟨by rw [hent, if_pos ⟨rfl, rfl⟩]; simp, ?_⟩
        rw [hent]
        split
        · simp
        · rename_i hne'
          intro htar
          cases hts : t.scratch with
          | false => exact hne' ⟨rfl, target_of_not_scratch hts⟩
          | true =>
            have hnew := hD.fresh (mem_scratches.2 ⟨htb, hts⟩)
            exact hne' ⟨rfl, (hD.single hnew htar hname).2⟩
      · obtain ⟨r, hok⟩ := @call_unlink _ _ s.sh _ _ _ _ (hdrop hne) (h.fits htb) hname hb
        rw [hok] at hfail; cases hfail
  · rw [put_flow_ne _ _ hki] at ht
    exact ⟨hold ht (h.gone ht).1, hold ht (h.gone ht).2⟩

theorem Settled.flowStep (hdrop : fl'.log.undone ≠ (s.flow i).log.undone → c.fault = none) :
    Settled (s.put i (sh', fl')) := by
  refine ⟨fun {k t} ht => ?_, fun ht => h.landed_step hD hU hf hs ht, fun ht => h.gone_step hD hU hf hs hdrop ht⟩
  rcases put_born hs.effect ht with ht | ⟨-, ho⟩
  · exact h.fits ht
  · cases ho with
    | draw _ htd hc | place _ htd hc => subst htd; exact hc.short
    | reuse _ htd _ _ _ hn => subst htd; exact hn

end Step

theorem settled_inv (ht : fs0.DirTree cfg.root) (h : Reach (step cfg) Dropping (.init cfg fs0) s) : Unique s → Settled s := by
  refine h.invariant_while (I := Settled) (P := Unique) (.init cfg fs0) (fun s a s' hst hd => hd.mono (step_grows hst)) ?_
  intro s a s' hr hU0 hU ih hst hdrop
  rcases step_faults hst with ⟨i, c, sh', fl', -, hc, hs, rfl⟩ | ⟨ha, -⟩
  · refine ih.flowStep (unique_disk ht hr hU0).2 hU (fun i => flow_inv hr i) hs fun hne => ?_
    rw [← hc]
    exact hdrop ⟨i, by rw [put_flow]; exact hne⟩
  · exact ih.aside ha

/-! ## The end of a session -/

/-- A file is at an end: committed under its final name and there, or dropped and not found again. -/
structure AtEnd (cfg : Cfg) (s : State) (i : Nat) : Prop where
  once : ((s.flow i).log.kept ++ (s.flow i).log.undone).Perm (s.flow i).log.born ∧
    ((s.flow i).log.kept ++ (s.flow i).log.undone).Nodup
  kept : ∀ t ∈ (s.flow i).log.kept, resolve s.sh.fs.entry cfg.root t.path = some t.file
  undone : ∀ t ∈ (s.flow i).log.undone, resolve s.sh.fs.entry cfg.root t.path ≠ some t.file
  /-- A scratch file has no name but its final one. -/
  scratch : ∀ t ∈ (s.flow i).log.scratches, ∀ d n, s.sh.fs.entry d n = some t.file →
    t ∈ (s.flow i).log.kept ∧ d = t.parent ∧ n = t.target

theorem PhaseOk.settled {r : Except Err Stats} (h : PhaseOk cfg fs0 s (.returned r)) (hf : ∀ i, FlowInv cfg (s.flow i))
    (hi : ∀ i, cfg.flows ≤ i → (s.flow i).log = .init) (i : Nat) :
    ((s.flow i).log.kept ++ (s.flow i).log.undone).Perm (s.flow i).log.born := by
  by_cases hlt : i < cfg.flows
  · have hjoined : (∃ r, (s.flow i).result cfg = some r) → _ := fun ⟨r, hr⟩ => (hf i).settled hr
    cases r with
    | ok st => exact hjoined ⟨_, h i hlt⟩
    | error e =>
      rcases h with hu | hr
      · obtain ⟨w, eof, he⟩ := hu.flow i
        rw [he]; exact .refl _
      · exact hjoined (Option.isSome_iff_exists.1 (hr i hlt))
  · rw [hi i (by omega)]; exact .refl _

/-- When `accept_one` has returned every file created is committed or gone, once. -/
theorem at_end {r : Except Err Stats} (ht : fs0.DirTree cfg.root) (h : Reach (step cfg) Dropping (.init cfg fs0) s)
    (hU : Unique s) (hr : s.main = .returned r) (i : Nat) : AtEnd cfg s i := by
  have hf := fun i => flow_inv h i
  obtain ⟨-, hD⟩ := unique_disk ht h hU
  have hS := settled_inv ht h hU
  have hph := phase_ok h
  rw [hr] at hph
  have hperm := hph.settled hf (fun i hi => log_idle h (i := i) hi) i
  have hnodup := hperm.nodup_iff.2 ((hf i).born_paths (hU.paths.nodup i)).of_map
  have hpath : ∀ {t}, t ∈ (s.flow i).log.born → resolve s.sh.fs.entry cfg.root t.path = s.sh.fs.entry t.parent t.target :=
    fun hb => ((hD.placed i).born _ hb).resolve _
  refine ⟨⟨hperm, hnodup⟩, fun t hk => ?_, fun t hk => ?_, fun t hts d n hn => ?_⟩
  · rw [hpath ((hf i).kept_born hk)]; exact hS.landed (.inl hk)
  · rw [hpath ((hf i).undone_born hk)]; exact (hS.gone hk).2
  · obtain ⟨hd, hname⟩ := hD.names hts hn
    subst hd
    rcases List.mem_append.1 (hperm.symm.subset (mem_scratches.1 hts).1) with hk | hk
    · rcases hname with rfl | rfl
      · have hsingle := hD.single (hD.fresh hts) hn (hS.landed (.inl hk))
        exact absurd hsingle.2 ((hf i).name_ne hts)
      · exact ⟨hk, rfl, rfl⟩
    · rcases hname with rfl | rfl
      · exact absurd hn (hS.gone hk).1
      · exact absurd hn (hS.gone hk).2

/-- The stream ends inside the only file. -/
def cutShort : List Act := List.flatten [opening single,
  [.deliver 0 ((entryOf .file pathA 2).encode ++ [8])], netRuns 0 8, [.cut 0 0], netRuns 0 2, writerRuns 0 6, [.main plain]]

end Thunderflash.Recv
