/-
Where everything in the destination comes from: a name that leads to a new inode is an entry's
path, an ancestor of one or a scratch name, and an old inode has changed only at an entry's path.
-/
import Thunderflash.Recv.Contents

namespace Thunderflash.Recv

open Codec Posix Fs Lts

variable {cfg : Cfg} {c : Choice} {sh sh' : Shared} {fl fl' : Flow} {s s' : State} {fs0 : Fs} {t u : InFlight}
  {d i k : Nat} {n : Name}

/-! ## New inodes -/

/-- Why name `n` of directory `d` leads to the new inode `i`. -/
inductive Origin (cfg : Cfg) (s : State) (d : Nat) (n : Name) (i : Nat) : Prop
  | dir {k : Nat} {e : Entry} {ps : List Name} : (e, ps ++ [n]) ∈ (s.flow k).log.heard → e.kind = .dir →
      Handle s.sh.fs cfg.root d ps → s.sh.fs.leaf i = some .dir → Origin cfg s d n i
  | ancestor {k : Nat} {e : Entry} {ps qs : List Name} : (e, ps ++ n :: qs) ∈ (s.flow k).log.heard → qs ≠ [] →
      Handle s.sh.fs cfg.root d ps → s.sh.fs.leaf i = some .dir → Origin cfg s d n i
  | link {k : Nat} {fr : Frame} {ps : List Name} : (fr.entry, fr.comps) ∈ (s.flow k).log.heard →
      Carries cfg (s.flow k).log.got fr → fr.entry.kind = .symlink → fr.comps = ps ++ [n] →
      Handle s.sh.fs cfg.root d ps → s.sh.fs.leaf i = some (.symlink fr.payload) → Origin cfg s d n i
  | scratch {k : Nat} {t : InFlight} : t ∈ (s.flow k).log.scratches → t.file = i → d = t.parent → n = t.name →
      Origin cfg s d n i
  | commit {k : Nat} {t : InFlight} : t ∈ (s.flow k).log.scratches → t ∈ (s.flow k).log.kept → t.file = i →
      d = t.parent → n = t.target → Origin cfg s d n i
  | place {k : Nat} {t : InFlight} : t ∈ (s.flow k).log.born → t.scratch = false → t.file = i → d = t.parent →
      n = t.name → Origin cfg s d n i

/-- Symlinks and directories stay what they are. -/
theorem Effect.leaf_kept (h : Effect cfg c sh fl sh' fl') {l : Leaf} (hd : DirsKept sh.fs sh'.fs)
    (hl : sh.fs.leaf i = some l) (hf : ∀ b, l ≠ .file b) : sh'.fs.leaf i = some l := by
  by_cases hdir : l = .dir
  · subst hdir; exact hd.leaf hl
  · rcases h.writes (lt_of_leaf hl) (by rw [hl]; simpa using hdir) with he | hw
    · unfold Fs.leaf Fs.node at hl ⊢; rw [he]; exact hl
    · cases hw with
      | place _ _ h | fill _ _ h => rw [hl] at h; exact absurd (Option.some.inj h) (hf _)
      | chmod _ _ h | stamp _ _ h => exact h.trans hl
      | date _ _ h => exact h.trans hl

theorem Effect.leaf_plain (h : Effect cfg c sh fl sh' fl') (hi : i < sh.fs.inodes.length)
    (hl : sh.fs.leaf i ≠ some .dir) : sh'.fs.leaf i ≠ some .dir := by
  rcases h.writes hi hl with he | hw
  · unfold Fs.leaf Fs.node at hl ⊢; rw [he]; exact hl
  · cases hw with
    | place _ _ _ h | fill _ _ _ h => rw [h]; simp
    | chmod _ _ h | stamp _ _ h => rw [h]; exact hl
    | date _ _ h => rw [h]; exact hl

theorem Origin.mono (h : Origin cfg s d n i) (hg : ∀ k, (s.flow k).log.Grows (s'.flow k).log)
    (hd : DirsKept s.sh.fs s'.sh.fs) (hl : ∀ t, s.sh.fs.leaf i = some (.symlink t) → s'.sh.fs.leaf i = some (.symlink t)) :
    Origin cfg s' d n i := by
  cases h with
  | dir hh hk hp hi => exact .dir ((hg _).heard.subset hh) hk (hp.mono hd) (hd.leaf hi)
  | ancestor hh hq hp hi => exact .ancestor ((hg _).heard.subset hh) hq (hp.mono hd) (hd.leaf hi)
  | link hh hc hk hps hp hi =>
    obtain ⟨more, hm⟩ := (hg _).got
    exact .link ((hg _).heard.subset hh) (hm ▸ hc.append more) hk hps (hp.mono hd) (hl _ hi)
  | scratch ht hf hp hn => exact .scratch ((hg _).scratches.subset ht) hf hp hn
  | commit ht hk hf hp hn => exact .commit ((hg _).scratches.subset ht) ((hg _).kept.subset hk) hf hp hn
  | place ht hs hf hp hn => exact .place ((hg _).born.subset ht) hs hf hp hn

/-- Every name that leads to a new inode has an origin. -/
def Sourced (cfg : Cfg) (fs0 : Fs) (s : State) : Prop :=
  ∀ {d n i}, fs0.inodes.length ≤ i → s.sh.fs.entry d n = some i → Origin cfg s d n i

theorem put_grows (hs : FlowStep cfg c s.sh (s.flow i) sh' fl') (k : Nat) :
    (s.flow k).log.Grows ((s.put i (sh', fl')).flow k).log := by
  by_cases hk : k = i
  · subst hk; rw [put_flow]; exact hs.grows
  · rw [put_flow_ne _ _ hk]; exact .refl _

theorem Sourced.flowStep (h : Sourced cfg fs0 s) (hD : Disk cfg fs0 s) (hf : ∀ i, FlowInv cfg (s.flow i))
    (hs : FlowStep cfg c s.sh (s.flow i) sh' fl') : Sourced cfg fs0 (s.put i (sh', fl')) := by
  have he := hs.effect
  have hch := hD.change (hf i) he
  have hg := put_grows hs
  have hmono : ∀ {d ps}, Handle s.sh.fs cfg.root d ps → Handle (s.put i (sh', fl')).sh.fs cfg.root d ps :=
    fun hp => hp.mono hch.kept
  have hheard : ∀ {j st}, (s.flow i).net = .at j st → (j.entry, j.comps) ∈ ((s.put i (sh', fl')).flow i).log.heard :=
    fun hn => (hg i).heard.subset ((hf i).heard_job hn)
  have hplaced := (hD.placed i).net
  have hpc := (hf i).net.pc
  intro d n r hr hb
  rcases he.binds hb with hb | hb
  · exact (h hr hb).mono hg hch.kept fun t ht => he.leaf_kept hch.kept ht (by simp)
  · cases hb with
    | dir hn hdj hnj _ _ hl =>
      rw [hn] at hplaced hpc
      subst hdj hnj
      exact .dir (hheard hn) hpc.2.2 (hmono hplaced) hl
    | @walk j done todo hn hdj _ _ hl =>
      rw [hn] at hplaced hpc
      subst hdj
      have hc : j.comps = done ++ n :: (todo ++ [j.name]) := by simp [Job.comps, hpc.2.2]
      have := hheard hn
      rw [hc] at this
      exact .ancestor this (by simp) (hmono hplaced) hl
    | @link j target hn hdj hnj _ _ hl =>
      rw [hn] at hplaced hpc
      obtain ⟨hj, -, hk, hpart, -, hw⟩ := hpc
      subst hdj hnj
      have hcar : Carries cfg (s.flow i).log.got (frameOf j (s.flow i).log) :=
        ⟨hw, (s.flow i).log.done, [], (hf i).net.log.whole, by rw [hj.got, List.append_nil]⟩
      obtain ⟨more, hm⟩ := (hg i).got
      refine @Origin.link _ _ _ _ _ i (frameOf j (s.flow i).log) _ (hheard hn) (hm ▸ hcar.append more) hk rfl (hmono hplaced) ?_
      rw [show (frameOf j (s.flow i).log).payload = target from hpart]
      exact hl
    | draw hn hdj hnj _ _ _ hh =>
      refine .scratch (k := i) (t := Flow.scratchFile _ c r) ?_ rfl hdj hnj
      rw [put_flow, mem_scratches, hh.born]
      exact ⟨by simp, rfl⟩
    | place hn hdj hnj _ _ _ hh =>
      refine .place (k := i) (t := Flow.placedFile _ r) ?_ rfl rfl hdj hnj
      rw [put_flow, hh.born]
      simp
    | @commit t hw hdt hent hh =>
      obtain ⟨htok, hts, htar⟩ := (hf i).rename_token hw
      rw [hD.live htok hts] at hent
      refine .commit (k := i) (t := t) ((hg i).scratches.subset (mem_scratches.2 ⟨(hf i).token_born htok, hts⟩)) ?_
        (Option.some.inj hent) hdt htar.symm
      rw [put_flow, hh.kept]
      simp

/-! ## Old inodes -/

/-- Inode `i` of the destination as it was has changed, and on whose account. -/
inductive Changed (cfg : Cfg) (fs0 : Fs) (s : State) (i : Nat) : Prop
  /-- Its times only, by a Dir or Symlink entry at its path. -/
  | times {k : Nat} {x : Entry × List Name} : x ∈ (s.flow k).log.heard → x.1.kind ≠ .file →
      resolve fs0.entry cfg.root x.2 = some i → s.sh.fs.leaf i = fs0.leaf i → s.sh.fs.mode i = fs0.mode i →
      Changed cfg fs0 s i
  /-- Written in place, as a File entry whose name is too long for a scratch name. -/
  | place {k : Nat} {x : Entry × List Name} : x ∈ (s.flow k).log.heard →
      NAME_MAX < (x.2.getLastD []).length + 21 → resolve fs0.entry cfg.root x.2 = some i → Changed cfg fs0 s i

/-- Every inode of the destination as it was, directories apart, is untouched or changed on some account. -/
structure Preserved (cfg : Cfg) (fs0 : Fs) (s : State) : Prop where
  plain : ∀ {i}, i < fs0.inodes.length → fs0.leaf i ≠ some .dir → s.sh.fs.leaf i ≠ some .dir
  inode : ∀ {i}, i < fs0.inodes.length → fs0.leaf i ≠ some .dir →
    s.sh.fs.inodes[i]? = fs0.inodes[i]? ∨ Changed cfg fs0 s i
  /-- A file written in place was there at its path, or is new. -/
  place : ∀ {k t}, t ∈ (s.flow k).log.born → t.file < fs0.inodes.length →
    resolve fs0.entry cfg.root t.path = some t.file ∧ NAME_MAX < t.target.length + 21

theorem Changed.mono (h : Changed cfg fs0 s i) (hg : ∀ k, (s.flow k).log.Grows (s'.flow k).log)
    (hl : s'.sh.fs.leaf i = s.sh.fs.leaf i) (hm : s'.sh.fs.mode i = s.sh.fs.mode i) : Changed cfg fs0 s' i := by
  cases h with
  | times hx hk hr h1 h2 => exact .times ((hg _).heard.subset hx) hk hr (hl.trans h1) (hm.trans h2)
  | place hx hn hr => exact .place ((hg _).heard.subset hx) hn hr

theorem leaf_of_inode {fs fs' : Fs} (h : fs'.inodes[i]? = fs.inodes[i]?) :
    fs'.leaf i = fs.leaf i ∧ fs'.mode i = fs.mode i ∧ fs'.mtime i = fs.mtime i := by
  simp [Fs.leaf, Fs.node, Fs.mode, Fs.mtime, h]

theorem NetPc.Clears.stage {pc : NetPc} {j : Job} (h : pc.Clears j) : ∃ st, pc = .at j st := by
  rcases h with ⟨_, h⟩ | h <;> exact ⟨_, h⟩

/-- The name of an entry leads where it led in the destination as it was, or to a new inode. -/
theorem Disk.resolve_job {j : Job} (h : Disk cfg fs0 s) (hp : Handle s.sh.fs cfg.root j.dir j.parents)
    (hb : s.sh.fs.entry j.dir j.name = some i) (hi : i < fs0.inodes.length) :
    resolve fs0.entry cfg.root j.comps = some i :=
  Faithful.resolve h.faithful hi (by rw [Job.comps, hp.resolve]; exact hb)

theorem Preserved.flowStep (h : Preserved cfg fs0 s) (hD : Disk cfg fs0 s) (hf : ∀ i, FlowInv cfg (s.flow i))
    (hs : FlowStep cfg c s.sh (s.flow k) sh' fl') : Preserved cfg fs0 (s.put k (sh', fl')) := by
  have he := hs.effect
  have hg := put_grows hs
  have hplaced := (hD.placed k).net
  have hpc := (hf k).net.pc
  have hheard : ∀ {j st}, (s.flow k).net = .at j st → (j.entry, j.comps) ∈ ((s.put k (sh', fl')).flow k).log.heard :=
    fun hn => (hg k).heard.subset ((hf k).heard_job hn)
  -- a file at the writer that is old was written in place
  have htok : ∀ {t}, t ∈ (s.flow k).tokens → t.file < fs0.inodes.length →
      Changed cfg fs0 (s.put k (sh', fl')) t.file := by
    intro t ht hlt
    have hb := (hf k).token_born ht
    obtain ⟨hr, hn⟩ := h.place hb hlt
    obtain ⟨x, hx, hxp⟩ := (hf k).born_heard hb
    refine .place ((hg k).heard.subset hx) ?_ (by rw [hxp]; exact hr)
    rw [hxp, path_last]; exact hn
  refine ⟨fun {i} hi hdir => ?_, fun {i} hi hdir => ?_, fun {k' t} ht hlt => ?_⟩
  · have hlen : i < s.sh.fs.inodes.length := lt_of_lt_of_le hi hD.grown
    exact he.leaf_plain hlen (h.plain hi hdir)
  · have hlen : i < s.sh.fs.inodes.length := lt_of_lt_of_le hi hD.grown
    have hdir' := h.plain hi hdir
    rcases he.writes hlen hdir' with heq | hw
    · rcases h.inode hi hdir with hold | hc
      · exact .inl (heq.trans hold)
      · exact .inr (hc.mono hg (leaf_of_inode heq).1 (leaf_of_inode heq).2.1)
    · right
      cases hw with
      | @place j _ _ hn hb _ _ _ =>
        rw [hn] at hplaced hpc
        exact .place (hheard hn) (by rw [comps_last]; exact hpc.2.2.2) (hD.resolve_job hplaced hb hi)
      | @fill o _ _ _ hw ho _ _ _ _ =>
        subst ho
        exact htok (by rw [tokens_eq, hw]; exact List.mem_append_right _ (List.mem_singleton_self _)) hi
      | @chmod t hw ht _ _ =>
        subst ht
        exact htok (by rw [tokens_eq, hw]; exact List.mem_append_right _ (List.mem_singleton_self _)) hi
      | @stamp t hw ht _ _ _ =>
        subst ht
        exact htok (by rw [tokens_eq, hw]; exact List.mem_append_right _ (List.mem_singleton_self _)) hi
      | @date j hn hb hl hm _ =>
        have hj : Handle s.sh.fs cfg.root j.dir j.parents ∧ j.entry.kind ≠ .file ∧
            (j.entry, j.comps) ∈ ((s.put k (sh', fl')).flow k).log.heard := by
          rcases hn with hn | hn <;> rw [hn] at hplaced hpc
          · exact ⟨hplaced, by rw [hpc.2.2]; simp, hheard hn⟩
          · exact ⟨hplaced, by rw [hpc.2.2.1]; simp, hheard hn⟩
        have hr := hD.resolve_job hj.1 hb hi
        rcases h.inode hi hdir with hold | hc
        · exact .times hj.2.2 hj.2.1 hr (hl.trans (leaf_of_inode hold).1) (hm.trans (leaf_of_inode hold).2.1)
        · exact hc.mono hg hl hm
  · rcases put_born he ht with ht | ⟨rfl, ho⟩
    · exact h.place ht hlt
    · have hgrown := hD.grown
      cases ho with
      | draw _ ht' | place _ ht' => subst ht'; simp only [Flow.scratchFile, Flow.placedFile] at hlt; omega
      | @reuse j _ r _ hn ht' hb _ _ =>
        subst ht'
        rw [hn] at hplaced hpc
        exact ⟨hD.resolve_job hplaced hb hlt, hpc.2.2.2⟩

/-! ## Old names -/

/-- Why name `n` of directory `d` no longer leads to what it led to. -/
inductive Lost (cfg : Cfg) (s : State) (d : Nat) (n : Name) : Prop
  /-- An entry that is not a file, or is written in place, has its path. -/
  | entry {k : Nat} {x : Entry × List Name} {ps : List Name} : x ∈ (s.flow k).log.heard → x.2 = ps ++ [n] →
      Handle s.sh.fs cfg.root d ps → x.1.kind ≠ .file ∨ NAME_MAX < n.length + 21 → Lost cfg s d n
  /-- A file was committed under it. -/
  | commit {k : Nat} {t : InFlight} : t ∈ (s.flow k).log.scratches → t ∈ (s.flow k).log.kept → d = t.parent →
      n = t.target → s.sh.fs.entry d n = some t.file → Lost cfg s d n

structure Names (cfg : Cfg) (fs0 : Fs) (s : State) : Prop where
  lost : ∀ {d n i}, fs0.entry d n = some i → s.sh.fs.entry d n = some i ∨ Lost cfg s d n
  /-- The scratch names drawn were free from the start. -/
  free : ∀ {k t}, t ∈ (s.flow k).log.scratches → fs0.entry t.parent t.name = none
  modes : ∀ {i}, fs0.leaf i = some .dir → s.sh.fs.mode i = fs0.mode i

theorem FlowInv.long (h : FlowInv cfg fl) (ht : t ∈ fl.log.born) (hs : t.scratch = false) : NAME_MAX < t.name.length + 21 := by
  obtain ⟨j, hj⟩ := h.net.log.name t ht
  rcases hj.name with ⟨_, hf, -⟩ | ⟨-, hn, hl⟩
  · simp [InFlight.scratch, hf] at hs
  · rw [hn]; exact hl

theorem Effect.dir_mode (h : Effect cfg c sh fl sh' fl') (hl : sh.fs.leaf i = some .dir)
    (hfile : ∀ t, fl.writer = .chmod t → ∃ b, sh.fs.leaf t.file = some (.file b)) : sh'.fs.mode i = sh.fs.mode i := by
  rcases h.mode (lt_of_leaf hl) with he | ⟨t, hw, rfl, -⟩
  · exact he
  · obtain ⟨b, hb⟩ := hfile t hw
    rw [hl] at hb; cases hb

theorem Lost.mono (h : Lost cfg s d n) (hg : ∀ k, (s.flow k).log.Grows (s'.flow k).log) (hd : DirsKept s.sh.fs s'.sh.fs)
    (he : s'.sh.fs.entry d n = s.sh.fs.entry d n) : Lost cfg s' d n := by
  cases h with
  | entry hx hc hp hk => exact .entry ((hg _).heard.subset hx) hc (hp.mono hd) hk
  | commit ht hk hp hn hb => exact .commit ((hg _).scratches.subset ht) ((hg _).kept.subset hk) hp hn (he.trans hb)

/-- A name that is unbound is an entry's, or was a scratch name. -/
theorem Unbinds.lost (h : Unbinds cfg c s.sh (s.flow k) sh' fl' d n) (hD : Disk cfg fs0 s)
    (hf : ∀ i, FlowInv cfg (s.flow i)) (hs : FlowStep cfg c s.sh (s.flow k) sh' fl') :
    Lost cfg (s.put k (sh', fl')) d n ∨ ∃ t ∈ (s.flow k).log.scratches, d = t.parent ∧ n = t.name := by
  have hkept := (hD.change (hf k) hs.effect).kept
  have hg := put_grows hs k
  have hplaced := (hD.placed k).net
  have hpc := (hf k).net.pc
  cases h with
  | @clear j hc hd hn _ =>
    subst hd hn
    obtain ⟨st, hst⟩ := hc.stage
    have hp : Handle s.sh.fs cfg.root j.dir j.parents ∧ (j.entry.kind ≠ .file ∨ NAME_MAX < j.name.length + 21) := by
      rcases hc with ⟨target, hn⟩ | hn <;> rw [hn] at hplaced hpc
      · exact ⟨hplaced, .inl (by rw [hpc.2.2.1]; simp)⟩
      · exact ⟨hplaced, .inr hpc.2.2.2⟩
    exact .inl (.entry (hg.heard.subset ((hf k).heard_job hst)) rfl (hp.1.mono hkept) hp.2)
  | @moved t final hw hd hn _ _ =>
    obtain ⟨ht, hts, -⟩ := (hf k).rename_token hw
    exact .inr ⟨t, mem_scratches.2 ⟨(hf k).token_born ht, hts⟩, hd, hn⟩
  | @replaced t hw hd hh hent =>
    obtain ⟨ht, hts, htar⟩ := (hf k).rename_token hw
    refine .inl (.commit (k := k) (hg.scratches.subset (mem_scratches.2 ⟨(hf k).token_born ht, hts⟩)) ?_ hd htar.symm ?_)
    · rw [put_flow, hh.kept]; simp
    · rw [hd] at hent
      rw [hd]
      exact hent.trans (hD.live ht hts)
  | @undo t ht hd hn hh _ =>
    cases hts : t.scratch with
    | true => exact .inr ⟨t, mem_scratches.2 ⟨(hf k).token_born ht, hts⟩, hd, hn⟩
    | false =>
      have hb := (hf k).token_born ht
      obtain ⟨x, hx, hxp⟩ := (hf k).born_heard hb
      rw [InFlight.path, target_of_not_scratch hts, ← hn] at hxp
      subst hd
      exact .inl (.entry (hg.heard.subset hx) hxp (((hD.placed k).born t hb).mono hkept)
        (.inr (by rw [hn]; exact (hf k).long hb hts)))
  | @late t e hw hd hn _ =>
    obtain ⟨hk, hts⟩ := (hf k).late_token hw
    exact .inr ⟨t, mem_scratches.2 ⟨(hf k).kept_born hk, hts⟩, hd, hn⟩

theorem Names.flowStep (h : Names cfg fs0 s) (hD : Disk cfg fs0 s) (hf : ∀ i, FlowInv cfg (s.flow i))
    (hd : Drawn (s.put k (sh', fl'))) (hs : FlowStep cfg c s.sh (s.flow k) sh' fl') :
    Names cfg fs0 (s.put k (sh', fl')) := by
  have he := hs.effect
  have hkept := (hD.change (hf k) he).kept
  have hg := put_grows hs
  have hlost : ∀ {d n i}, fs0.entry d n = some i → (s.put k (sh', fl')).sh.fs.entry d n = some i ∨
      Lost cfg (s.put k (sh', fl')) d n := by
    intro d n i h0
    rcases h.lost h0 with hb | hl
    · rcases he.unbinds hb with hb' | hu
      · exact .inl hb'
      · rcases hu.lost hD hf hs with hl | ⟨t, ht, rfl, rfl⟩
        · exact .inr hl
        · rw [h.free ht] at h0; cases h0
    · right
      cases hl with
      | entry hx hc hp hk => exact .entry ((hg _).heard.subset hx) hc (hp.mono hkept) hk
      | @commit k' t ht hk hp hn hb =>
        rcases he.unbinds hb with hb' | hu
        · exact .commit ((hg _).scratches.subset ht) ((hg _).kept.subset hk) hp hn hb'
        · rcases hu.lost hD hf hs with hl | ⟨u, hu', -, hun⟩
          · exact hl
          · -- a scratch name is no file's proper name
            obtain ⟨x, hx, hlast⟩ := (hf k').target_heard (mem_scratches.1 ht).1
            exact absurd (hun.symm.trans (hn.trans hlast.symm))
              (hd.names ((hg k).scratches.subset hu') ((hg k').heard.subset hx))
  refine ⟨hlost, fun {k' t} ht => ?_, fun {i} hi => ?_⟩
  · rcases put_scratches he ht with ht' | ⟨rfl, ho, hts⟩
    · exact h.free ht'
    · obtain ⟨j, tries, hn, ht', hc⟩ := ho.of_scratch hts
      cases h0 : fs0.entry t.parent t.name with
      | none => rfl
      | some r =>
        have hcell : t.parent = j.dir ∧ t.name = scratchName j.name c.draw := by rw [ht']; exact ⟨rfl, rfl⟩
        rcases h.lost h0 with hb | hl
        · rw [hcell.1, hcell.2, hc.free] at hb; cases hb
        · cases hl with
          | entry hx hxp _ _ =>
            refine absurd ?_ (hd.names ht ((hg _).heard.subset hx))
            rw [hxp]; simp
          | commit _ _ _ _ hb => rw [hcell.1, hcell.2, hc.free] at hb; cases hb
  · rw [← h.modes hi]
    exact he.dir_mode (hD.dirs.leaf hi) fun t hw =>
      hD.file ((hf k).token_born (by rw [tokens_eq, hw]; exact List.mem_append_right _ (List.mem_singleton_self _)))

/-! ## Every state -/

theorem Aside.grows (h : Aside s s') (k : Nat) : (s.flow k).log.Grows (s'.flow k).log := by
  rw [h.log]; exact .refl _

/-- What is known of the destination in every state, as long as the names drawn are new. -/
structure Known (cfg : Cfg) (fs0 : Fs) (s : State) : Prop extends Disk cfg fs0 s where
  sourced : Sourced cfg fs0 s
  preserved : Preserved cfg fs0 s
  old : Names cfg fs0 s

theorem known {ok : State → Act → State → Prop} (ht : fs0.DirTree cfg.root)
    (h : Reach (step cfg) ok (.init cfg fs0) s) : Drawn s → Known cfg fs0 s := by
  refine h.invariant_while (I := Known cfg fs0) (P := Drawn) ?_ (fun s a s' hst hd => hd.mono (step_grows hst)) ?_
  · refine ⟨.init ht, fun hi he => absurd (ht.range he) (by omega), ⟨fun _ h => h, fun _ _ => .inl rfl, ?_⟩,
      ⟨fun h => .inl h, ?_, fun _ => rfl⟩⟩
    · intro k t ht
      simp [State.init, Flow.init, Log.init] at ht
    · intro k t ht
      simp [State.init, Flow.init, Log.init, Log.scratches] at ht
  · intro s a s' hr _ hd ih hst _
    rcases step_cases hst with ⟨i, c, sh', fl', -, hf, rfl⟩ | ⟨ha, -⟩
    · have hflows := fun i => flow_inv hr i
      exact ⟨ih.toDisk.flowStep hflows hd hf, Sourced.flowStep ih.sourced ih.toDisk hflows hf,
        ih.preserved.flowStep ih.toDisk hflows hf, ih.old.flowStep ih.toDisk hflows hd hf⟩
    · refine ⟨ih.toDisk.aside ha, fun {d n i} hi he => ?_, ⟨fun {i} => ?_, fun {i} hi hdir => ?_, fun {k t} ht' hlt => ?_⟩,
        ⟨fun {d n i} h0 => ?_, fun {k t} ht' => ?_, fun {i} hi => ?_⟩⟩
      · rw [ha.fs] at he
        exact (ih.sourced hi he).mono ha.grows (by rw [ha.fs]; exact .refl _) fun t ht' => by rw [ha.fs]; exact ht'
      · rw [ha.fs]; exact ih.preserved.plain
      · rw [ha.fs]
        exact (ih.preserved.inode hi hdir).imp_right fun hc => hc.mono ha.grows (by rw [ha.fs]) (by rw [ha.fs])
      · rw [ha.log] at ht'
        exact ih.preserved.place ht' hlt
      · rw [ha.fs]
        exact (ih.old.lost h0).imp_right fun hl => hl.mono ha.grows (by rw [ha.fs]; exact .refl _) (by rw [ha.fs])
      · rw [ha.log] at ht'
        exact ih.old.free ht'
      · rw [ha.fs]; exact ih.old.modes hi

end Thunderflash.Recv
