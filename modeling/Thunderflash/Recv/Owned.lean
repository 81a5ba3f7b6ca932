/-
The disk's invariant: a scratch file in flight is under its own name and no other, nothing but its
flow can reach it, and the directories the threads hold open stay where they are.
-/
import Thunderflash.Recv.Placed

namespace Thunderflash.Recv

open Codec Posix Fs Lts

variable {cfg : Cfg} {c : Choice} {sh sh' : Shared} {fl fl' : Flow} {s s' : State} {fs0 : Fs} {t u : InFlight} {j : Job}

/-! ## Names -/

/-- Is the file under a scratch name, beside its target? -/
def InFlight.scratch (t : InFlight) : Bool := t.finalName.isSome

def Log.scratches (l : Log) : List InFlight := l.born.filter InFlight.scratch

/-- What is assumed of the names drawn: none is an entry's name, and none is drawn twice in one
directory. -/
structure Drawn (s : State) : Prop where
  names : ∀ {i k t x}, t ∈ (s.flow i).log.scratches → x ∈ (s.flow k).log.heard → t.name ≠ x.2.getLastD []
  new : Distinct fun i => (s.flow i).log.scratches.map fun t => (t.parent, t.name)

/-- The names drawn can be judged at the flows the session has. -/
theorem names_of_reach {ok : State → Act → State → Prop} (h : Reach (step cfg) ok (.init cfg fs0) s)
    (hn : ∀ i < cfg.flows, ∀ k < cfg.flows, ∀ t ∈ (s.flow i).log.scratches, ∀ x ∈ (s.flow k).log.heard,
      t.name ≠ x.2.getLastD []) {i k : Nat} {x : Entry × List Name} (ht : t ∈ (s.flow i).log.scratches)
    (hx : x ∈ (s.flow k).log.heard) : t.name ≠ x.2.getLastD [] := by
  have hlt : ∀ {i}, (s.flow i).log ≠ .init → i < cfg.flows := by
    intro i hi
    by_contra hge
    exact hi (log_idle h (by omega))
  exact hn i (hlt fun he => by rw [he] at ht; cases ht) k (hlt fun he => by rw [he] at hx; cases hx) t ht x hx

theorem Drawn.of_reach {ok : State → Act → State → Prop} (h : Reach (step cfg) ok (.init cfg fs0) s)
    (hn : ∀ i < cfg.flows, ∀ k < cfg.flows, ∀ t ∈ (s.flow i).log.scratches, ∀ x ∈ (s.flow k).log.heard,
      t.name ≠ x.2.getLastD [])
    (hd : ((List.range cfg.flows).flatMap fun i => (s.flow i).log.scratches.map fun t => (t.parent, t.name)).Nodup) :
    Drawn s :=
  ⟨names_of_reach h hn, .of_range (fun i hi => by rw [log_idle h hi]; rfl) hd⟩

theorem Log.Grows.scratches {l l' : Log} (h : l.Grows l') : l.scratches <+: l'.scratches := h.born.filter _

theorem Drawn.mono (h : Drawn s') (hg : ∀ i, (s.flow i).log.Grows (s'.flow i).log) : Drawn s :=
  ⟨fun ht hx => h.names ((hg _).scratches.subset ht) ((hg _).heard.subset hx),
    h.new.of_sublist fun i => ((hg i).scratches.sublist.map _)⟩

theorem mem_scratches {l : Log} : t ∈ l.scratches ↔ t ∈ l.born ∧ t.scratch = true := by simp [Log.scratches]

theorem comps_last (j : Job) : j.comps.getLastD [] = j.name := by simp [Job.comps]

theorem path_last (t : InFlight) : t.path.getLastD [] = t.target := by simp [InFlight.path]

theorem target_of_not_scratch (h : t.scratch = false) : t.target = t.name := by
  unfold InFlight.scratch at h
  unfold InFlight.target
  rw [Option.isSome_eq_false_iff, Option.isNone_iff_eq_none] at h
  rw [h]; rfl

theorem FlowInv.token_born (h : FlowInv cfg fl) (ht : t ∈ fl.tokens) : t ∈ fl.log.born :=
  h.files.subset (List.mem_append_left _ ht)

theorem FlowInv.kept_born (h : FlowInv cfg fl) (ht : t ∈ fl.log.kept) : t ∈ fl.log.born :=
  h.files.subset (List.mem_append_right _ (List.mem_append_left _ ht))

theorem FlowInv.undone_born (h : FlowInv cfg fl) (ht : t ∈ fl.log.undone) : t ∈ fl.log.born :=
  h.files.subset (List.mem_append_right _ (List.mem_append_right _ ht))

/-- Where a file belongs is an entry's path. -/
theorem FlowInv.born_heard (h : FlowInv cfg fl) (ht : t ∈ fl.log.born) : ∃ x ∈ fl.log.heard, x.2 = t.path := by
  have := h.net.log.born.subset (List.mem_map_of_mem ht)
  simpa using this

theorem FlowInv.heard_job {st : Stage} (h : FlowInv cfg fl) (hn : fl.net = .at j st) :
    (j.entry, j.comps) ∈ fl.log.heard := by
  have hp := h.net.pc
  rw [hn] at hp
  rw [hp.1.heard]
  simp

theorem FlowInv.target_heard (h : FlowInv cfg fl) (ht : t ∈ fl.log.born) :
    ∃ x ∈ fl.log.heard, x.2.getLastD [] = t.target := by
  obtain ⟨x, hx, he⟩ := h.born_heard ht
  exact ⟨x, hx, by rw [he, path_last]⟩

/-- A scratch file is in one place only: in flight, committed or dropped. -/
theorem FlowInv.scratch_once (h : FlowInv cfg fl) (hd : fl.log.scratches.Nodup) (hs : t.scratch = true)
    (ht : t ∈ fl.tokens) : t ∉ fl.log.kept ∧ t ∉ fl.log.undone := by
  have hp := h.files.filter InFlight.scratch
  rw [List.filter_append, List.filter_append] at hp
  have hn := (hp.nodup_iff).2 hd
  rw [List.nodup_append] at hn
  have hmem : ∀ {l : List InFlight}, t ∈ l → t ∈ l.filter InFlight.scratch := fun hl => List.mem_filter.2 ⟨hl, hs⟩
  exact ⟨fun hk => hn.2.2 t (hmem ht) t (List.mem_append_left _ (hmem hk)) rfl,
    fun hk => hn.2.2 t (hmem ht) t (List.mem_append_right _ (hmem hk)) rfl⟩

/-- The file being renamed is a scratch file in flight, and gets its target's name. -/
theorem FlowInv.rename_token {final : Name} (h : FlowInv cfg fl) (hw : fl.writer = .rename t final) :
    t ∈ fl.tokens ∧ t.scratch = true ∧ t.target = final := by
  have hwi := h.writer
  unfold WriterInv at hwi
  rw [hw] at hwi
  refine ⟨by simp [Flow.tokens, hw, WriterPc.tokens], ?_, ?_⟩
  · simp [InFlight.scratch, hwi.1]
  · simp [InFlight.target, hwi.1]

theorem FlowInv.late_token {e : Err} (h : FlowInv cfg fl) (hw : fl.writer = .lateDrop t e) :
    t ∈ fl.log.kept ∧ t.scratch = true := by
  have hwi := h.writer
  unfold WriterInv at hwi
  rw [hw] at hwi
  exact ⟨hwi.2.2.2, hwi.2.2.1⟩

/-! ## The invariant -/

structure Disk (cfg : Cfg) (fs0 : Fs) (s : State) : Prop where
  tree : s.sh.fs.DirTree cfg.root
  grown : fs0.inodes.length ≤ s.sh.fs.inodes.length
  dirs : DirsKept fs0 s.sh.fs
  single : Single fs0 s.sh.fs
  faithful : Faithful fs0 s.sh.fs
  placed : ∀ i, Placed (Handle s.sh.fs cfg.root) (s.flow i)
  /-- A created file is a regular file. -/
  file : ∀ {i t}, t ∈ (s.flow i).log.born → ∃ b, s.sh.fs.leaf t.file = some (.file b)
  /-- A scratch file is a new inode, -/
  fresh : ∀ {i t}, t ∈ (s.flow i).log.scratches → fs0.inodes.length ≤ t.file
  /-- in flight it is under its scratch name, -/
  live : ∀ {i t}, t ∈ (s.flow i).tokens → t.scratch = true → s.sh.fs.entry t.parent t.name = some t.file
  /-- it never has any name but its own two, -/
  names : ∀ {i t d n}, t ∈ (s.flow i).log.scratches → s.sh.fs.entry d n = some t.file →
    d = t.parent ∧ (n = t.name ∨ n = t.target)
  /-- and no other file created is the same inode. -/
  apart : Distinct fun i => (s.flow i).log.scratches.map InFlight.file
  mixed : ∀ {i k t u}, t ∈ (s.flow i).log.scratches → u ∈ (s.flow k).log.born → t.file = u.file → u.scratch = true
  short : ∀ {i t}, t ∈ (s.flow i).log.scratches → t.target.length + 21 ≤ NAME_MAX

theorem Disk.init (ht : fs0.DirTree cfg.root) : Disk cfg fs0 (.init cfg fs0) where
  tree := ht
  grown := le_refl _
  dirs := .refl _
  single := fun hi he => absurd (ht.range he) (by omega)
  faithful := fun _ h => h
  placed := fun _ => .init
  file := by simp [State.init, Flow.init, Log.init]
  fresh := by simp [State.init, Flow.init, Log.init, Log.scratches]
  live := by
    intro i t ht
    simp only [State.init, Flow.init, Flow.tokens, NetPc.tokens, WriterPc.tokens, inFlights_nil, List.nil_append,
      List.append_nil] at ht
    split at ht <;> cases ht
  names := by simp [State.init, Flow.init, Log.init, Log.scratches]
  apart := ⟨by simp [State.init, Flow.init, Log.init, Log.scratches], by simp [State.init, Flow.init, Log.init, Log.scratches]⟩
  mixed := by simp [State.init, Flow.init, Log.init, Log.scratches]
  short := by simp [State.init, Flow.init, Log.init, Log.scratches]

theorem Disk.aside (h : Disk cfg fs0 s) (ha : Aside s s') : Disk cfg fs0 s' where
  tree := by rw [ha.fs]; exact h.tree
  grown := by rw [ha.fs]; exact h.grown
  dirs := by rw [ha.fs]; exact h.dirs
  single := by rw [ha.fs]; exact h.single
  faithful := by rw [ha.fs]; exact h.faithful
  placed := fun i => by
    obtain ⟨w, e, he⟩ := ha.flow i
    rw [ha.fs, he]
    exact ⟨(h.placed i).net, (h.placed i).cache, (h.placed i).born⟩
  file := by intro i t; rw [ha.fs, ha.log]; exact h.file
  fresh := by intro i t; rw [ha.log]; exact h.fresh
  live := by intro i t; rw [ha.fs, ha.tokens]; exact h.live
  names := by intro i t d n; rw [ha.fs, ha.log]; exact h.names
  apart := by simp only [ha.log]; exact h.apart
  mixed := by intro i k t u; rw [ha.log, ha.log]; exact h.mixed
  short := by intro i t; rw [ha.log]; exact h.short

theorem Disk.lt (h : Disk cfg fs0 s) {i : Nat} (ht : t ∈ (s.flow i).log.born) : t.file < s.sh.fs.inodes.length := by
  obtain ⟨b, hb⟩ := h.file ht
  exact lt_of_leaf hb

/-- What one step renames is a new regular file. -/
theorem Disk.change (h : Disk cfg fs0 s) {i : Nat} (hi : FlowInv cfg (s.flow i))
    (he : Effect cfg c s.sh (s.flow i) sh' fl') : Change fs0.inodes.length s.sh.fs sh'.fs := by
  refine he.change fun t final r hw hn => ?_
  obtain ⟨ht, hs, -⟩ := hi.rename_token hw
  rw [h.live ht hs] at hn
  cases hn
  obtain ⟨b, hb⟩ := h.file (hi.token_born ht)
  exact ⟨by rw [hb]; simp, h.fresh (mem_scratches.2 ⟨hi.token_born ht, hs⟩)⟩

section Step

variable {i k : Nat}

theorem put_born (he : Effect cfg c s.sh (s.flow i) sh' fl') (ht : t ∈ ((s.put i (sh', fl')).flow k).log.born) :
    t ∈ (s.flow k).log.born ∨ (k = i ∧ Opens cfg c s.sh (s.flow i) sh' t) := by
  by_cases hk : k = i
  · subst hk
    rw [put_flow] at ht
    rcases he.born with ⟨hb, -⟩ | ⟨u, ho, hb, -⟩
    · rw [hb] at ht; exact .inl ht
    · rw [hb, List.mem_append, List.mem_singleton] at ht
      exact ht.imp_right fun h => ⟨rfl, by rw [h]; exact ho⟩
  · rw [put_flow_ne _ _ hk] at ht; exact .inl ht

theorem put_tokens (he : Effect cfg c s.sh (s.flow i) sh' fl') (ht : t ∈ ((s.put i (sh', fl')).flow k).tokens) :
    t ∈ (s.flow k).tokens ∨ (k = i ∧ Opens cfg c s.sh (s.flow i) sh' t) := by
  by_cases hk : k = i
  · subst hk
    rw [put_flow] at ht
    rcases he.born with ⟨-, hb⟩ | ⟨u, ho, -, hb⟩
    · exact .inl (hb t ht)
    · exact (hb t ht).imp_right fun h => ⟨rfl, by rw [h]; exact ho⟩
  · rw [put_flow_ne _ _ hk] at ht; exact .inl ht

theorem put_scratches (he : Effect cfg c s.sh (s.flow i) sh' fl') (ht : t ∈ ((s.put i (sh', fl')).flow k).log.scratches) :
    t ∈ (s.flow k).log.scratches ∨ (k = i ∧ Opens cfg c s.sh (s.flow i) sh' t ∧ t.scratch = true) := by
  rw [mem_scratches] at ht ⊢
  exact (put_born he ht.1).imp (fun h => ⟨h, ht.2⟩) fun h => ⟨h.1, h.2, ht.2⟩

theorem Opens.of_scratch (h : Opens cfg c sh fl sh' t) (hs : t.scratch = true) :
    ∃ j tries, fl.net = .at j (.tempCreate tries) ∧ t = Flow.scratchFile j c sh.fs.inodes.length ∧
      Creates sh.fs sh'.fs j.dir (scratchName j.name c.draw) (.file [])
        ((j.entry.mode ||| 0o600) &&& 0o7777 &&& ~~~cfg.umask) := by
  cases h with
  | draw hn ht hc => exact ⟨_, _, hn, ht, hc⟩
  | place _ ht | reuse _ ht => subst ht; cases hs

/-- A name of a scratch file is unbound only when its own flow commits or drops it. -/
theorem Disk.unbinds (h : Disk cfg fs0 s) (hf : ∀ i, FlowInv cfg (s.flow i)) (hd : Drawn (s.put i (sh', fl')))
    (hs : FlowStep cfg c s.sh (s.flow i) sh' fl') (ht : t ∈ (s.flow k).tokens) (hts : t.scratch = true)
    (hu : Unbinds cfg c s.sh (s.flow i) sh' fl' t.parent t.name) : k = i ∧ (t ∈ fl'.log.kept ∨ t ∈ fl'.log.undone) := by
  have hg : ∀ i', (s.flow i').log.Grows ((s.put i (sh', fl')).flow i').log := by
    intro i'
    by_cases h' : i' = i
    · subst h'; rw [put_flow]; exact hs.grows
    · rw [put_flow_ne _ _ h']; exact .refl _
  have hd0 : Drawn s := hd.mono hg
  have hmem := mem_scratches.2 ⟨(hf k).token_born ht, hts⟩
  have heq : ∀ {u}, u ∈ (s.flow i).log.born → u.scratch = true → t.parent = u.parent → t.name = u.name → k = i ∧ t = u := by
    intro u hu hus hp hn
    exact hd0.new.eq hmem (mem_scratches.2 ⟨hu, hus⟩) (by simp [hp, hn])
  cases hu with
  | @clear j hc _ hn _ =>
    have hj : ∃ st, (s.flow i).net = .at j st := by
      rcases hc with ⟨_, hc⟩ | hc <;> exact ⟨_, hc⟩
    obtain ⟨st, hst⟩ := hj
    refine absurd ?_ (hd0.names hmem ((hf i).heard_job hst))
    rw [comps_last]; exact hn
  | moved hw hp hn hh _ =>
    obtain ⟨hut, hus, -⟩ := (hf i).rename_token hw
    obtain ⟨hk, rfl⟩ := heq ((hf i).token_born hut) hus hp hn
    exact ⟨hk, .inl (by rw [hh.kept]; simp)⟩
  | replaced hw _ _ _ =>
    obtain ⟨hut, -, htar⟩ := (hf i).rename_token hw
    obtain ⟨x, hx, hlast⟩ := (hf i).target_heard ((hf i).token_born hut)
    exact absurd (htar.symm.trans hlast.symm) (hd0.names hmem hx)
  | @undo u hut hp hn hh _ =>
    cases hus : u.scratch with
    | true =>
      obtain ⟨hk, rfl⟩ := heq ((hf i).token_born hut) hus hp hn
      exact ⟨hk, .inr (by rw [hh.undone]; simp)⟩
    | false =>
      obtain ⟨x, hx, hlast⟩ := (hf i).target_heard ((hf i).token_born hut)
      rw [target_of_not_scratch hus, ← hn] at hlast
      exact absurd hlast.symm (hd0.names hmem hx)
  | late hw hp hn _ =>
    obtain ⟨hk', hus⟩ := (hf i).late_token hw
    obtain ⟨rfl, rfl⟩ := heq ((hf i).kept_born hk') hus hp hn
    exact absurd hk' ((hf k).scratch_once (h.apart.of_map.nodup k) hts ht).1

theorem Disk.apart_step (h : Disk cfg fs0 s) (he : Effect cfg c s.sh (s.flow i) sh' fl') :
    Distinct fun k => ((s.put i (sh', fl')).flow k).log.scratches.map InFlight.file := by
  have hsame : fl'.log.scratches = (s.flow i).log.scratches →
      Distinct fun k => ((s.put i (sh', fl')).flow k).log.scratches.map InFlight.file := by
    intro hb
    refine h.apart.of_sublist fun k => ?_
    by_cases hk : k = i
    · subst hk; rw [put_flow, hb]
    · rw [put_flow_ne _ _ hk]
  rcases he.born with ⟨hb, -⟩ | ⟨t, ho, hb, -⟩
  · exact hsame (by unfold Log.scratches; rw [hb])
  · cases hts : t.scratch with
    | false => exact hsame (by unfold Log.scratches; rw [hb]; simp [hts])
    | true =>
      obtain ⟨j, tries, -, rfl, -⟩ := ho.of_scratch hts
      refine h.apart.push (i := i) (x := s.sh.fs.inodes.length) ?_ (fun k hk => by rw [put_flow_ne _ _ hk]) fun k hk => ?_
      · rw [put_flow]
        unfold Log.scratches
        rw [hb, List.filter_append, List.map_append, List.filter_cons_of_pos hts]
        rfl
      · obtain ⟨u, hu, hx⟩ := List.mem_map.1 hk
        have := h.lt (mem_scratches.1 hu).1
        omega

theorem Disk.flowStep (h : Disk cfg fs0 s) (hf : ∀ i, FlowInv cfg (s.flow i)) (hd : Drawn (s.put i (sh', fl')))
    (hs : FlowStep cfg c s.sh (s.flow i) sh' fl') : Disk cfg fs0 (s.put i (sh', fl')) := by
  have he := hs.effect
  have hch := h.change (hf i) he
  have hg : ∀ i', (s.flow i').log.Grows ((s.put i (sh', fl')).flow i').log := by
    intro i'
    by_cases h' : i' = i
    · subst h'; rw [put_flow]; exact hs.grows
    · rw [put_flow_ne _ _ h']; exact .refl _
  have hd0 : Drawn s := hd.mono hg
  have hfs : (s.put i (sh', fl')).sh.fs = sh'.fs := rfl
  have hapart := h.apart_step he
  refine ⟨hch.tree h.tree, h.grown.trans hch.length_le, h.dirs.trans hch.kept, hch.single h.tree h.grown h.single,
    hch.faithful h.grown h.faithful, ?_, ?_, ?_, ?_, ?_, hapart, ?_, ?_⟩
  · intro k
    have hm : ∀ d ps, Handle s.sh.fs cfg.root d ps → Handle sh'.fs cfg.root d ps := fun _ _ hp => hp.mono hch.kept
    by_cases hk : k = i
    · subst hk
      rw [put_flow]
      refine hs.placed (hf k) ((h.placed k).mono hm) (.nil (hch.tree h.tree)) fun d n i ps _ hn hl hp => ?_
      exact hp.snoc (hch.kept.entry hl hn) (hch.kept.leaf hl)
    · rw [put_flow_ne _ _ hk]; exact (h.placed k).mono hm
  · intro k t ht
    rcases put_born he ht with ht | ⟨-, ho⟩
    · obtain ⟨b, hb⟩ := h.file ht; exact he.file hb
    · exact ⟨_, ho.file⟩
  · intro k t ht
    rcases put_scratches he ht with ht | ⟨-, ho, hts⟩
    · exact h.fresh ht
    · obtain ⟨j, tries, -, rfl, -⟩ := ho.of_scratch hts
      exact h.grown
  · intro k t ht hts
    rcases put_tokens he ht with ht' | ⟨-, ho⟩
    · rcases he.unbinds (h.live ht' hts) with hl | hu
      · exact hl
      · -- its flow has let go of it
        obtain ⟨rfl, hgone⟩ := h.unbinds hf hd hs ht' hts hu
        rw [put_flow] at ht
        have hone := (hs.inv (hf k)).scratch_once (by have := hapart.of_map.nodup k; rwa [put_flow] at this) hts ht
        exact (hgone.elim hone.1 hone.2).elim
    · obtain ⟨j, tries, -, rfl, hc⟩ := ho.of_scratch hts
      rw [hfs, hc.entry]
      simp [Flow.scratchFile]
  · intro k t d n ht hb
    rcases put_scratches he ht with ht | ⟨-, ho, hts⟩
    · have hlt := h.lt (mem_scratches.1 ht).1
      rcases he.binds hb with hb | hb
      · exact h.names ht hb
      · cases hb with
        | commit hw hp hn hh =>
          obtain ⟨hut, hus, htar⟩ := (hf i).rename_token hw
          have hub := mem_scratches.2 ⟨(hf i).token_born hut, hus⟩
          rw [h.live hut hus] at hn
          obtain ⟨-, rfl⟩ := h.apart.eq ht hub (Option.some.inj hn).symm
          exact ⟨hp, .inr htar.symm⟩
        | dir _ _ _ _ hi | walk _ _ _ hi | link _ _ _ _ hi | draw _ _ _ _ hi | place _ _ _ _ hi => omega
    · obtain ⟨j, tries, hn, rfl, hc⟩ := ho.of_scratch hts
      rw [hfs, hc.entry] at hb
      split at hb
      · rename_i hcell; exact ⟨hcell.1, .inl hcell.2⟩
      · exact absurd (h.tree.range hb) (by simp [Flow.scratchFile])
  · intro k l t u ht hu htu
    rcases put_scratches he ht with ht | ⟨-, ho, hts⟩
    · rcases put_born he hu with hu | ⟨-, hou⟩
      · exact h.mixed ht hu htu
      · have hlt := h.lt (mem_scratches.1 ht).1
        cases hou with
        | draw _ hu' => subst hu'; rfl
        | place _ hu' => subst hu'; exact absurd htu (by simp only [Flow.placedFile]; omega)
        | reuse hn hu' hent _ _ =>
          subst hu'
          simp only [Flow.placedFile] at htu
          rw [← htu] at hent
          -- a name too long for a scratch file is none of a scratch file's names
          obtain ⟨-, hname | hname⟩ := h.names ht hent
          · refine absurd ?_ (hd0.names ht ((hf i).heard_job hn))
            rw [comps_last]; exact hname.symm
          · have hp := (hf i).net.pc
            rw [hn] at hp
            have := h.short ht
            have := hp.2.2.2
            rw [hname] at this
            omega
    · obtain ⟨j, tries, hn, rfl, hc⟩ := ho.of_scratch hts
      rcases put_born he hu with hu | ⟨-, hou⟩
      · have := h.lt hu
        simp only [Flow.scratchFile] at htu
        omega
      · cases hou with
        | draw _ hu' => subst hu'; rfl
        | place hn' | reuse hn' => rw [hn] at hn'; cases hn'
  · intro k t ht
    rcases put_scratches he ht with ht | ⟨-, ho, hts⟩
    · exact h.short ht
    · obtain ⟨j, tries, -, rfl, hc⟩ := ho.of_scratch hts
      have := hc.short
      rw [Flow.length_scratchName] at this
      exact this

end Step

/-- The disk's invariant holds in every state, as long as the names drawn are new. -/
theorem disk_inv {ok : State → Act → State → Prop} (ht : fs0.DirTree cfg.root)
    (h : Reach (step cfg) ok (.init cfg fs0) s) : Drawn s → Disk cfg fs0 s := by
  refine h.invariant_while (I := Disk cfg fs0) (P := Drawn) (.init ht) (fun s a s' hst hd => hd.mono (step_grows hst)) ?_
  intro s a s' hr _ hd ih hst _
  rcases step_cases hst with ⟨i, c, sh', fl', -, hf, rfl⟩ | ⟨ha, -⟩
  · exact ih.flowStep (fun i => flow_inv hr i) hd hf
  · exact ih.aside ha

end Thunderflash.Recv
