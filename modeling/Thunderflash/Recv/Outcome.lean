/-
What a session that succeeds makes of its destination: the tree that receiving its entries one after
another makes, whatever the flows, their interleaving and the order of the entries were.
-/
import Thunderflash.Recv.Links
import Thunderflash.Recv.Dated
import Thunderflash.Tree.Place

namespace Thunderflash.Recv

open Codec Posix Fs Lts Thunderflash.Recv.Flow

variable {cfg : Cfg} {c : Choice} {sh sh' : Shared} {fl fl' : Flow} {s s' : State} {fs0 : Fs} {t u : InFlight} {j : Job}
  {fr : Frame} {x : Entry × List Name} {p : List Name} {i k r : Nat}

/-! ## The tree of a destination -/

/-- What stands at path `p` below `root`. -/
def shows (fs : Fs) (root : Nat) (p : List Name) : Option Leaf := (resolve fs.entry root p).bind fs.leaf

/-- A file whose name is too long for a scratch name has no other name. -/
def Unshared (fs : Fs) : Prop :=
  ∀ {d n d' n' i}, NAME_MAX < n.length + 21 → fs.entry d n = some i → fs.entry d' n' = some i → d = d' ∧ n = n'

/-- All names are short, computed. -/
def Unshared.check (fs : Fs) : Bool :=
  fs.inodes.all fun x =>
    match x.node with
    | .dir es => es.all fun e => decide (e.1.length + 21 ≤ NAME_MAX)
    | _ => true

theorem Unshared.of_check {fs : Fs} (h : Unshared.check fs = true) : Unshared fs := by
  intro d n d' n' i hlong he _
  unfold Fs.entry at he
  split at he
  · rename_i es hd
    obtain ⟨x, hx, hnode⟩ := Option.map_eq_some_iff.1 hd
    have hall := List.all_eq_true.1 h x (List.mem_of_getElem? hx)
    rw [hnode] at hall
    obtain ⟨a, b, rfl, -⟩ := List.lookup_eq_some_iff.1 he
    have hshort := of_decide_eq_true (List.all_eq_true.1 hall (n, i) (by simp))
    exact absurd hshort (by simpa using hlong)
  · cases he

/-- What a frame puts at its path. -/
def Frame.planted (fr : Frame) : List Name × Option Leaf :=
  (fr.comps, match fr.entry.kind with
    | .file => some (.file fr.payload)
    | .symlink => some (.symlink fr.payload)
    | _ => none)

/-- Every entry a session has completed. -/
def State.frames (cfg : Cfg) (s : State) : List Frame := (List.range cfg.flows).flatMap fun i => (s.flow i).log.done

/-- The tree that receiving the frames one after another makes of the destination. -/
def receive (before : List Name → Option Leaf) (frs : List Frame) : List Name → Option Leaf :=
  (frs.map Frame.planted).foldl (Tree.place .dir) before

theorem shows_of {l : Leaf} {fs : Fs} {root : Nat} (hr : resolve fs.entry root p = some r) (hl : fs.leaf r = some l) :
    shows fs root p = some l := by
  rw [shows, hr]
  exact hl

theorem resolve_of_shows {l : Leaf} {fs : Fs} {root : Nat} (h : shows fs root p = some l) :
    ∃ r, resolve fs.entry root p = some r ∧ fs.leaf r = some l := Option.bind_eq_some_iff.1 h

/-- A name leads to an inode that is something. -/
theorem DirTree.leaf_some {fs : Fs} {root : Nat} (ht : fs.DirTree root) (hr : resolve fs.entry root p = some r) :
    ∃ l, fs.leaf r = some l := by
  rcases List.eq_nil_or_concat p with rfl | ⟨ps, n, rfl⟩
  · cases hr
    exact ⟨_, ht.base⟩
  · rw [List.concat_eq_append] at hr
    obtain ⟨d, -, he⟩ := handle_of_resolve hr
    have hlt := ht.range he
    exact ⟨fs.inodes[r].node.leaf, by simp [Fs.leaf, Fs.node, List.getElem?_eq_getElem hlt]⟩

/-- What is on the way to something is a directory. -/
theorem dir_of_way {fs : Fs} {root : Nat} {q : List Name} (hr : resolve fs.entry root q = some r) (hp : p <+: q) (hne : p ≠ q) :
    shows fs root p = some .dir := by
  obtain ⟨rest, rfl⟩ := hp
  cases rest with
  | nil => exact absurd (List.append_nil p).symm hne
  | cons n rest =>
    rw [resolve_append, Option.bind_eq_some_iff] at hr
    obtain ⟨d, hd, hr⟩ := hr
    rw [resolve_cons, Option.bind_eq_some_iff] at hr
    obtain ⟨e, he, -⟩ := hr
    exact shows_of hd (dir_of_entry he)

/-! ## Dir entries -/

/-- With distinct paths, what the `mkdirat` of a Dir entry finds is a directory, or was there before the session. -/
theorem Known.clear_new (hK : Known cfg fs0 s) (hU : Unique s) (hf : ∀ i, FlowInv cfg (s.flow i))
    (hn : (s.flow i).net = .at j .dirMk) (hr : s.sh.fs.entry j.dir j.name = some r) (hnew : fs0.inodes.length ≤ r) :
    s.sh.fs.leaf r = some .dir := by
  have hp : Handle s.sh.fs cfg.root j.dir j.parents := by
    have := (hK.placed i).net
    rwa [hn] at this
  have hpc := (hf i).net.pc
  rw [hn] at hpc
  have hj := (hf i).heard_job hn
  have hborn : ∀ {k t}, t ∈ (s.flow k).log.born → j.dir = t.parent → j.name ≠ t.target := by
    intro k t ht hd hname
    refine hU.new_path hf hn hpc.2.1.toQuiet ht ?_
    have hplace := (hK.placed k).born t ht
    rw [← hd] at hplace
    rw [InFlight.path, hK.tree.inj hplace hp, ← hname, Job.comps]
  cases hK.sourced hnew hr with
  | dir _ _ _ hl | ancestor _ _ _ hl => exact hl
  | @link k fr ps hh _ hk hc hps _ =>
    have hpath : fr.comps = j.comps := by rw [hc, hK.tree.inj hps hp, Job.comps]
    obtain ⟨rfl, he⟩ := hU.paths.eq hh hj hpath
    rw [(Prod.mk.inj he).1, hpc.2.2] at hk
    cases hk
  | scratch ht _ _ hname =>
    refine absurd ?_ (hU.names ht hj)
    rw [comps_last]
    exact hname.symm
  | commit ht _ _ hd hname => exact absurd hname (hborn (mem_scratches.1 ht).1 hd)
  | place ht hs _ hd hname => exact absurd (hname.trans (target_of_not_scratch hs).symm) (hborn ht hd)

/-- Every Dir entry answered has something at its path: a directory, or what was there before the session. -/
def DirsAnswered (cfg : Cfg) (fs0 : Fs) (s : State) : Prop :=
  ∀ i x, (s.flow i).Stamped x ∨ (s.flow i).Stamping x → ∃ r, resolve s.sh.fs.entry cfg.root x.2 = some r ∧
    (fs0.inodes.length ≤ r → s.sh.fs.leaf r = some .dir)

theorem DirsAnswered.aside (h : DirsAnswered cfg fs0 s) (ha : Aside s s') : DirsAnswered cfg fs0 s' := by
  intro i x hx
  obtain ⟨hst, hsg⟩ := still_stamped (x := x) (ha.net i) (congrArg Log.done (ha.log i))
  rw [ha.fs]
  exact h i x (hx.imp hst.1 hsg.1)

/-! ## What was there before -/

/-- A name of the destination as it was still leads where it led, unless a File or Symlink entry has its path;
and a file nobody has opened holds what it held. -/
structure OldStand (cfg : Cfg) (fs0 : Fs) (s : State) : Prop where
  names : ∀ {p r}, p ≠ [] → resolve fs0.entry cfg.root p = some r → resolve s.sh.fs.entry cfg.root p = some r ∨
    ∃ k, ∃ x ∈ (s.flow k).log.heard, x.2 = p ∧ x.1.kind ≠ .dir
  leaves : ∀ {r l}, fs0.leaf r = some l → (∀ k, ∀ t ∈ (s.flow k).log.born, t.file ≠ r) → s.sh.fs.leaf r = some l

theorem OldStand.init : OldStand cfg fs0 (.init cfg fs0) where
  names _ hr := .inl hr
  leaves hl _ := hl

theorem OldStand.aside (h : OldStand cfg fs0 s) (ha : Aside s s') : OldStand cfg fs0 s' where
  names hp hr := by
    simp only [ha.fs, ha.log]
    exact h.names hp hr
  leaves hl hb := by
    rw [ha.fs]
    exact h.leaves hl fun k t ht => hb k t (by rw [ha.log]; exact ht)

section Step

variable (hK : Known cfg fs0 s) (hU : Unique s) (hf : ∀ i, FlowInv cfg (s.flow i))
  (hb : ∀ i, ∀ t ∈ (s.flow i).log.born, ∃ x ∈ (s.flow i).log.heard, x.2 = t.path ∧ x.1.kind = .file)
  (hs : FlowStep cfg c s.sh (s.flow i) sh' fl')

include hK hU hf hb hs

/-- What stands at a Dir entry's path stays there. -/
theorem Known.dir_stays (hx : x ∈ (s.flow k).log.heard) (hk : x.1.kind = .dir)
    (hr : resolve s.sh.fs.entry cfg.root x.2 = some r) : resolve sh'.fs.entry cfg.root x.2 = some r := by
  have hkept := (hK.toDisk.change (hf i) hs.effect).kept
  have hne : x.2 ≠ [] := (sanitize_ok ((hf k).net.log.sane _ hx)).1
  obtain ⟨ps, n, hc⟩ : ∃ ps n, x.2 = ps ++ [n] := ⟨_, _, (List.dropLast_append_getLast hne).symm⟩
  rw [hc] at hr ⊢
  obtain ⟨d, hp, hent⟩ := handle_of_resolve hr
  rcases hs.effect.unbinds hent with hent' | hu
  · rw [(hp.mono hkept).resolve]
    exact hent'
  · have hcause := hK.toDisk.cause hf hp hu
    rw [← hc] at hcause
    exfalso
    cases hcause with
    | @clear j hcl hjk hj =>
      obtain ⟨st, hst⟩ := hcl.stage
      obtain ⟨-, rfl⟩ := hU.paths.eq hx ((hf i).heard_job hst) hj.symm
      exact hjk hk
    | file ht hpath =>
      obtain ⟨y, hy, hyp, hyk⟩ := hb i _ ht
      obtain ⟨-, rfl⟩ := hU.paths.eq hx hy (hpath.symm.trans hyp.symm)
      rw [hk] at hyk
      cases hyk
    | scratch ht _ hn =>
      refine hU.names ht hx ?_
      rw [hc, List.getLastD_concat, hn]

theorem DirsAnswered.flowStep (h : DirsAnswered cfg fs0 s) : DirsAnswered cfg fs0 (s.put i (sh', fl')) := by
  have hkept := (hK.toDisk.change (hf i) hs.effect).kept
  have hold : ∀ {k y}, (s.flow k).Stamped y ∨ (s.flow k).Stamping y → ∃ r, resolve sh'.fs.entry cfg.root y.2 = some r ∧
      (fs0.inodes.length ≤ r → sh'.fs.leaf r = some .dir) := by
    intro k y hy
    obtain ⟨r, hr, hl⟩ := h k y hy
    obtain ⟨hh, hk⟩ : y ∈ (s.flow k).log.heard ∧ y.1.kind = .dir := by
      rcases hy with hy | ⟨j, hn, rfl⟩
      · exact ⟨hy.heard (hf k), hy.1⟩
      · have hpc := (hf k).net.pc
        rw [hn] at hpc
        exact ⟨(hf k).heard_job hn, hpc.2.2⟩
    exact ⟨r, hK.dir_stays hU hf hb hs hh hk hr, fun hnew => hkept.leaf (hl hnew)⟩
  intro k y hy
  by_cases hk : k = i
  · subst hk
    rw [put_flow] at hy
    obtain ⟨hst, hsg⟩ := hs.stamped (x := y) (hf k)
    rcases hy with hy | hy
    · exact hold ((hst hy).imp_right And.left)
    · rcases hsg hy with hy' | ⟨j, hn, rfl, hnet⟩
      · exact hold (.inr hy')
      · -- just answered
        obtain ⟨j', hn', -⟩ := hy
        have hp : Handle s.sh.fs cfg.root j.dir j.parents := by
          have := (hK.placed k).net
          rwa [hn] at this
        have hpc := (hf k).net.pc
        rw [hn] at hpc
        cases hfound : s.sh.fs.entry j.dir j.name with
        | some r =>
          refine ⟨r, ?_, fun hnew => hkept.leaf (hK.clear_new hU hf hn hfound hnew)⟩
          exact hK.dir_stays hU hf hb hs ((hf k).heard_job hn) hpc.2.2 (by rw [← hfound]; exact hp.resolve _)
        | none =>
          obtain ⟨-, d, hd, hl⟩ := FlowStep.mkdir hnet hn hn' fun r hr => by rw [hfound] at hr; cases hr
          exact ⟨d, by rw [← hd]; exact (hp.mono hkept).resolve _, fun _ => hl⟩
  · rw [put_flow_ne _ _ hk] at hy
    exact hold hy

omit hU in
theorem OldStand.flowStep (h : OldStand cfg fs0 s) : OldStand cfg fs0 (s.put i (sh', fl')) := by
  have he := hs.effect
  have hkept := (hK.toDisk.change (hf i) he).kept
  have hg := put_grows hs
  refine ⟨fun {p r} hp hr => ?_, fun {r l} hl hno => ?_⟩
  · rcases h.names hp hr with hr' | ⟨k, x, hx, hxp, hxk⟩
    · obtain ⟨ps, n, rfl⟩ : ∃ ps n, p = ps ++ [n] := ⟨_, _, (List.dropLast_append_getLast hp).symm⟩
      obtain ⟨d, hd, hent⟩ := handle_of_resolve hr'
      rcases he.unbinds hent with hent' | hu
      · left
        show resolve sh'.fs.entry cfg.root (ps ++ [n]) = some r
        rw [(hd.mono hkept).resolve]
        exact hent'
      · right
        cases hK.toDisk.cause hf hd hu with
        | clear hcl hjk hj =>
          obtain ⟨st, hst⟩ := hcl.stage
          exact ⟨i, _, (hg i).heard.subset ((hf i).heard_job hst), hj, hjk⟩
        | file ht hpath =>
          obtain ⟨y, hy, hyp, hyk⟩ := hb i _ ht
          exact ⟨i, y, (hg i).heard.subset hy, hyp.trans hpath, by rw [hyk]; simp⟩
        | scratch ht hdt hnt =>
          -- scratch names were free from the start
          obtain ⟨d0, hd0, hent0⟩ := handle_of_resolve hr
          obtain rfl : d0 = d := Option.some.inj ((hd0.mono hK.dirs).path.symm.trans hd.path)
          have hfree := hK.old.free ht
          rw [← hdt, ← hnt, hent0] at hfree
          cases hfree
    · exact .inr ⟨k, x, (hg k).heard.subset hx, hxp, hxk⟩
  · have hold : s.sh.fs.leaf r = some l := h.leaves hl fun k t ht => hno k t ((hg k).born.subset ht)
    show sh'.fs.leaf r = some l
    by_cases hdir : l = .dir
    · subst hdir
      exact hkept.leaf hold
    · rcases he.writes (lt_of_leaf hold) (by rw [hold]; simpa using hdir) with hsame | hw
      · rw [(leaf_of_inode hsame).1]
        exact hold
      · cases hw with
        | @place j _ _ _ _ _ _ hh =>
          refine absurd rfl (hno i (Flow.placedFile j r) ?_)
          rw [put_flow, hh.born]
          simp
        | @fill o _ _ _ hw ho =>
          refine absurd ho.symm (hno i o.t ((hg i).born.subset ((hf i).token_born ?_)))
          rw [tokens_eq, hw]
          exact List.mem_append_right _ (List.mem_singleton_self _)
        | chmod _ _ h' | stamp _ _ h' => exact h'.trans hold
        | date _ _ h' => exact h'.trans hold

end Step

/-- In every session whose entries have distinct paths the Dir entries are answered, and the rest of the destination
is what it was. -/
theorem stand_inv {ok : State → Act → State → Prop} (ht : fs0.DirTree cfg.root)
    (h : Reach (step cfg) ok (.init cfg fs0) s) : Unique s → DirsAnswered cfg fs0 s ∧ OldStand cfg fs0 s := by
  refine h.invariant_while (I := fun s => DirsAnswered cfg fs0 s ∧ OldStand cfg fs0 s) (P := Unique) ⟨?_, .init⟩
    (fun s a s' hst hU => hU.mono (step_grows hst)) ?_
  · rintro i x (⟨-, hx | ⟨j, hn, -⟩⟩ | ⟨j, hn, -⟩)
    · cases hx
    · cases hn
    · cases hn
  · rintro s a s' hr hU _ ⟨hA, hO⟩ hst -
    have hf := fun i => flow_inv hr i
    have hK := known ht hr (unique_disk ht hr hU).1
    rcases step_cases hst with ⟨i, c, sh', fl', -, hs, rfl⟩ | ⟨ha, -⟩
    · exact ⟨hA.flowStep hK hU hf (born_file hr) hs, hO.flowStep hK hf (born_file hr) hs⟩
    · exact ⟨hA.aside ha, hO.aside ha⟩

/-- A session gives no second name to a file. -/
theorem unshared_kept (ht : fs0.DirTree cfg.root) (h0 : Unshared fs0) (h : Reachable cfg fs0 s) (hU : Unique s) :
    Unshared s.sh.fs := by
  have hD := (unique_disk ht h hU).2
  intro d n d' n' r hlong he he'
  by_cases hnew : fs0.inodes.length ≤ r
  · exact hD.single hnew he he'
  · exact h0 hlong (hD.faithful (by omega) he) (hD.faithful (by omega) he')

/-! ## A session that has succeeded -/

/-- A session that drops no file meets no failure in dropping one. -/
theorem dropping_of_none {ok : State → Act → State → Prop} (h : Reach (step cfg) ok (.init cfg fs0) s) :
    (∀ i, (s.flow i).log.undone = []) → Reach (step cfg) Dropping (.init cfg fs0) s := by
  induction h with
  | init => exact fun _ => .init
  | @step s a s' _ hst _ ih =>
    intro hnone
    have hbefore : ∀ i, (s.flow i).log.undone = [] := by
      intro i
      have hg := (step_grows hst i).undone
      rw [hnone i] at hg
      exact List.prefix_nil.1 hg
    refine .step (ih hbefore) hst ?_
    rintro ⟨i, hne⟩
    rw [hnone, hbefore] at hne
    exact absurd rfl hne

section Succeeded

variable (ht : fs0.DirTree cfg.root) (h0 : Unshared fs0) (h : Reachable cfg fs0 s) (hU : Unique s) {st : Stats}
  (hr : s.main = .returned (.ok st))

include h hr

theorem succeeded_flow (i : Nat) : (s.flow i).log = .init ∨ (s.flow i).Succeeded cfg := by
  have hph := phase_ok h
  rw [hr] at hph
  by_cases hlt : i < cfg.flows
  · exact .inr ((flow_inv h i).success (hph i hlt))
  · exact .inl (log_idle h (by omega))

theorem succeeded_kept : (∀ i, (s.flow i).log.undone = []) ∧ ∀ i, (s.flow i).log.kept = (s.flow i).log.born := by
  constructor <;> intro i <;> rcases succeeded_flow h hr i with hlog | hs
  · rw [hlog]; rfl
  · exact hs.undone
  · rw [hlog]; rfl
  · exact hs.kept

omit hr in
theorem mem_frames : fr ∈ s.frames cfg ↔ ∃ i, fr ∈ (s.flow i).log.done := by
  unfold State.frames
  rw [List.mem_flatMap]
  constructor
  · rintro ⟨i, -, hfr⟩
    exact ⟨i, hfr⟩
  · rintro ⟨i, hfr⟩
    refine ⟨i, ?_, hfr⟩
    by_contra hlt
    rw [log_idle h (by simpa using hlt)] at hfr
    cases hfr

include ht hU

/-- The final tree at the path of a file created is that file. -/
theorem file_landed {i : Nat} (hb : t ∈ (s.flow i).log.born) : resolve s.sh.fs.entry cfg.root t.path = some t.file := by
  obtain ⟨hnone, hkept⟩ := succeeded_kept h hr
  have hend := at_end ht (dropping_of_none h hnone) hU hr i
  exact hend.kept t (by rw [hkept]; exact hb)

include h0

/-- No two files created share an inode. -/
theorem sole_files : Sole (fun _ => True) s := by
  have hD := (unique_disk ht h hU).2
  have hf := fun i => flow_inv h i
  have hnodup : ∀ {i}, (s.flow i).log.born.Nodup := fun {i} => ((hf i).born_paths (hU.paths.nodup i)).of_map
  refine ⟨fun {i k t u} hb hu _ he => ?_, fun {i t} _ => List.nodup_iff_count_le_one.1 hnodup t⟩
  cases hts : t.scratch with
  | true => exact hD.sole.apart hb hu hts he
  | false =>
    cases hus : u.scratch with
    | true =>
      obtain ⟨rfl, rfl⟩ := hD.sole.apart hu hb hus he.symm
      exact ⟨rfl, rfl⟩
    | false =>
      -- both in place, so under one name
      have h1 := file_landed ht h hU hr hb
      have h2 := file_landed ht h hU hr hu
      have hp1 := (hD.placed i).born t hb
      have hp2 := (hD.placed k).born u hu
      rw [InFlight.path, hp1.resolve] at h1
      rw [InFlight.path, hp2.resolve, ← he] at h2
      obtain ⟨hpar, hname⟩ : t.parent = u.parent ∧ t.target = u.target := by
        by_cases hnew : fs0.inodes.length ≤ t.file
        · exact hD.single hnew h1 h2
        · refine h0 ?_ (hD.faithful (by omega) h1) (hD.faithful (by omega) h2)
          rw [target_of_not_scratch hts]
          exact (hf i).long hb hts
      exact hD.same_place hU hf hb hu hpar hname

/-- Every File entry completed is at its path with its payload. -/
theorem file_arrived {i : Nat} (hd : fr ∈ (s.flow i).log.done) (hk : fr.entry.kind = .file) :
    ∃ t ∈ (s.flow i).log.born, t.path = fr.comps ∧ resolve s.sh.fs.entry cfg.root fr.comps = some t.file ∧
      s.sh.fs.leaf t.file = some (.file fr.payload) := by
  have hi := flow_inv h i
  rcases succeeded_flow h hr i with hlog | hsucc
  · rw [hlog] at hd; cases hd
  have hmem : fr ∈ (s.flow i).log.done.filter Frame.isFile := List.mem_filter.2 ⟨hd, by simp [Frame.isFile, hk]⟩
  obtain ⟨⟨t, q⟩, hq, hdel⟩ := forall₂_mem hi.net.log.files.flip hmem
  have hcom : (t, q) ∈ (s.flow i).log.committed := by
    unfold Log.committed
    rw [hsucc.files, Tally.tokens, List.length_map, List.take_length, hsucc.sent]
    exact hq
  have hfill : (s.flow i).Filled t q := .committed hcom
  have hb := hfill.born hi
  have hpath : t.path = fr.comps := hdel.path
  have hpay : q = fr.payload := hdel.payload
  refine ⟨t, hb, hpath, ?_, ?_⟩
  · rw [← hpath]
    exact file_landed ht h hU hr hb
  · rw [contents_inv h (sole_files ht h0 h hU hr) trivial hfill, hpay]

/-- Every entry completed has something at its path. -/
theorem frame_arrived {i : Nat} (hd : fr ∈ (s.flow i).log.done) :
    ∃ r, resolve s.sh.fs.entry cfg.root fr.comps = some r ∧ (∀ l, fr.planted.2 = some l → s.sh.fs.leaf r = some l) ∧
      (fr.planted.2 = none → fs0.inodes.length ≤ r → s.sh.fs.leaf r = some .dir) := by
  have hw := (flow_inv h i).net.log.whole fr hd
  cases hk : fr.entry.kind with
  | file =>
    obtain ⟨t, -, -, hres, hl⟩ := file_arrived ht h0 h hU hr hd hk
    exact ⟨t.file, hres, fun l hp => by simpa [Frame.planted, hk, hl] using hp, fun hp => by simp [Frame.planted, hk] at hp⟩
  | symlink =>
    obtain ⟨r, hres, hl⟩ := links_stand ht h hU i fr ⟨hk, .inl hd⟩
    exact ⟨r, hres, fun l hp => by simpa [Frame.planted, hk, hl] using hp, fun hp => by simp [Frame.planted, hk] at hp⟩
  | dir =>
    have hst : (s.flow i).Stamped (fr.entry, fr.comps) := ⟨hk, .inl (List.mem_map_of_mem (f := fun fr : Frame => (fr.entry, fr.comps)) hd)⟩
    obtain ⟨r, hres, hl⟩ := (stand_inv ht h hU).1 i _ (.inl hst)
    exact ⟨r, hres, fun l hp => by simp [Frame.planted, hk] at hp, fun _ => hl⟩
  | end_ => exact absurd hk hw.framed.kind

omit h0 ht hU in
/-- Every entry heard was completed. -/
theorem frame_of_heard {i : Nat} (hx : x ∈ (s.flow i).log.heard) :
    ∃ fr ∈ (s.flow i).log.done, fr.entry = x.1 ∧ fr.comps = x.2 := by
  rw [heard_done h hr i] at hx
  obtain ⟨fr, hfr, rfl⟩ := List.mem_map.1 hx
  exact ⟨fr, hfr, rfl, rfl⟩

omit h0 ht hr in
theorem frames_nodup : (((s.frames cfg).map Frame.planted).map Prod.fst).Nodup := by
  have hmap : ((s.frames cfg).map Frame.planted).map Prod.fst = (List.range cfg.flows).flatMap fun i => (s.flow i).log.done.map Frame.comps := by
    rw [State.frames, List.map_map, List.map_flatMap]
    rfl
  have hsub : ∀ i, ((s.flow i).log.done.map Frame.comps).Sublist ((s.flow i).log.heard.map Prod.snd) := by
    intro i
    have := (flow_inv h i).net.log.heard.sublist.map Prod.snd
    rwa [List.map_map] at this
  have hD := hU.paths.of_sublist hsub
  rw [hmap, List.nodup_flatMap]
  refine ⟨fun i _ => hD.nodup i, List.nodup_range.imp ?_⟩
  rintro i k hne y hi hk
  exact hne (hD.apart hi hk)

/-- At the path of no File or Symlink entry stands what stood there. -/
theorem old_shown {l : Leaf} (hno : ∀ v, (p, some v) ∉ (s.frames cfg).map Frame.planted) (hl : shows fs0 cfg.root p = some l) :
    shows s.sh.fs cfg.root p = some l := by
  have hK := known ht h (unique_disk ht h hU).1
  have hO := (stand_inv ht h hU).2
  have hplain : ∀ {i}, ∀ x ∈ (s.flow i).log.heard, x.2 = p → x.1.kind = .dir := by
    intro i x hx hxp
    obtain ⟨fr, hfr, he, hc⟩ := frame_of_heard h hr hx
    by_contra hk
    have hw := (flow_inv h i).net.log.whole fr hfr
    have hmem : fr.planted ∈ (s.frames cfg).map Frame.planted := List.mem_map_of_mem ((mem_frames h).2 ⟨i, hfr⟩)
    rw [← he] at hk
    unfold Frame.planted at hmem
    rw [hc, hxp] at hmem
    cases hkind : fr.entry.kind with
    | dir => exact hk hkind
    | end_ => exact hw.framed.kind hkind
    | file | symlink =>
      rw [hkind] at hmem
      exact hno _ hmem
  obtain ⟨r, hres, hleaf⟩ := resolve_of_shows hl
  by_cases hp : p = []
  · subst hp
    cases hres
    rw [ht.base] at hleaf
    cases hleaf
    exact shows_of rfl hK.tree.base
  · have hres' : resolve s.sh.fs.entry cfg.root p = some r := by
      rcases hO.names hp hres with hres' | ⟨k, x, hx, hxp, hxk⟩
      · exact hres'
      · exact absurd (hplain x hx hxp) hxk
    refine shows_of hres' (hO.leaves hleaf ?_)
    rintro k t hb rfl
    -- a file written in place at another name
    obtain ⟨hpath, hlong⟩ := hK.preserved.place hb (lt_of_leaf hleaf)
    obtain ⟨ps, n, rfl⟩ : ∃ ps n, p = ps ++ [n] := ⟨_, _, (List.dropLast_append_getLast hp).symm⟩
    obtain ⟨d, hd, hent⟩ := handle_of_resolve hres
    have hpath : resolve fs0.entry cfg.root (t.dirs ++ [t.target]) = some t.file := hpath
    obtain ⟨d', hd', hent'⟩ := handle_of_resolve hpath
    obtain ⟨rfl, rfl⟩ := h0 hlong hent' hent
    have hsame : t.path = ps ++ [t.target] := by rw [InFlight.path, ht.inj hd' hd]
    obtain ⟨x, hx, hxp, hxk⟩ := born_file h k t hb
    rw [hplain x hx (hxp.trans hsame)] at hxk
    cases hxk

omit h0 in
/-- Where nothing stood, something stands only on the way to an entry. -/
theorem new_shown {l : Leaf} (hnone : shows fs0 cfg.root p = none) (hl : shows s.sh.fs cfg.root p = some l) :
    ∃ i, ∃ x ∈ (s.flow i).log.heard, p <+: x.2 := by
  have hK := known ht h (unique_disk ht h hU).1
  have hf := fun i => flow_inv h i
  obtain ⟨r, hres, hleaf⟩ := resolve_of_shows hl
  have hp : p ≠ [] := by
    rintro rfl
    rw [shows_of rfl ht.base] at hnone
    cases hnone
  have hnew : fs0.inodes.length ≤ r := by
    by_contra hlt
    have hold := Faithful.resolve hK.faithful (by omega) hres
    obtain ⟨l', hl'⟩ := DirTree.leaf_some ht hold
    rw [shows_of hold hl'] at hnone
    cases hnone
  obtain ⟨ps, n, rfl⟩ : ∃ ps n, p = ps ++ [n] := ⟨_, _, (List.dropLast_append_getLast hp).symm⟩
  obtain ⟨d, hd, hent⟩ := handle_of_resolve hres
  have hborn : ∀ {k t}, t ∈ (s.flow k).log.born → d = t.parent → n = t.target →
      ∃ i, ∃ x ∈ (s.flow i).log.heard, ps ++ [n] <+: x.2 := by
    rintro k t hb rfl rfl
    obtain ⟨x, hx, hxp⟩ := (hf k).born_heard hb
    refine ⟨k, x, hx, ?_⟩
    rw [hxp, InFlight.path, hK.tree.inj ((hK.placed k).born t hb) hd]
  cases hK.sourced hnew hent with
  | dir hx _ hd' =>
    rw [hK.tree.inj hd' hd] at hx
    exact ⟨_, _, hx, List.prefix_rfl⟩
  | @ancestor k e qs rest hx _ hd' =>
    rw [hK.tree.inj hd' hd] at hx
    refine ⟨k, _, hx, rest, ?_⟩
    simp
  | @link k fr qs hx _ _ hc hd' =>
    refine ⟨k, _, hx, ?_⟩
    show ps ++ [n] <+: fr.comps
    rw [hc, hK.tree.inj hd' hd]
  | @scratch k t hts hfile hpar hname =>
    subst hfile
    obtain ⟨hnone', -⟩ := succeeded_kept h hr
    have hend := at_end ht (dropping_of_none h hnone') hU hr k
    obtain ⟨-, -, htar⟩ := hend.scratch t hts d n hent
    exact absurd (hname.symm.trans htar) ((hf k).name_ne hts)
  | commit hts _ _ hpar hname => exact hborn (mem_scratches.1 hts).1 hpar hname
  | place hb hs _ hpar hname => exact hborn hb hpar (hname.trans (target_of_not_scratch hs).symm)

/-- What a path shows in the end is what receiving the entries one after another puts there. -/
theorem shows_received (p : List Name) : shows s.sh.fs cfg.root p = receive (shows fs0 cfg.root) (s.frames cfg) p := by
  have hK := known ht h (unique_disk ht h hU).1
  have hframe : ∀ {y}, y ∈ (s.frames cfg).map Frame.planted → ∃ i, ∃ fr ∈ (s.flow i).log.done, fr.planted = y := by
    intro y hy
    obtain ⟨fr, hfr, rfl⟩ := List.mem_map.1 hy
    obtain ⟨i, hi⟩ := (mem_frames h).1 hfr
    exact ⟨i, fr, hi, rfl⟩
  by_cases hv : ∃ v, (p, some v) ∈ (s.frames cfg).map Frame.planted
  · -- the path of a file or a link
    obtain ⟨v, hv⟩ := hv
    obtain ⟨i, fr, hfr, he⟩ := hframe hv
    obtain ⟨r, hres, hleaf, -⟩ := frame_arrived ht h0 h hU hr hfr
    obtain ⟨rfl, hval⟩ : fr.comps = p ∧ fr.planted.2 = some v := ⟨congrArg Prod.fst he, congrArg Prod.snd he⟩
    rw [receive, Tree.foldl_place_value (frames_nodup h hU) hv]
    exact shows_of hres (hleaf v hval)
  · have hno : ∀ v, (p, some v) ∉ (s.frames cfg).map Frame.planted := fun v hm => hv ⟨v, hm⟩
    rw [receive, Tree.foldl_place_way hno]
    cases hold : shows fs0 cfg.root p with
    | some l =>
      rw [old_shown ht h0 h hU hr hno hold]
      rfl
    | none =>
      by_cases hway : ∃ y ∈ (s.frames cfg).map Frame.planted, p <+: y.1
      · -- a directory, of an entry's or on the way to one
        obtain ⟨y, hy, hp⟩ := hway
        rw [Tree.way_of_mem hy hp]
        obtain ⟨i, fr, hfr, rfl⟩ := hframe hy
        obtain ⟨r, hres, -, hdir⟩ := frame_arrived ht h0 h hU hr hfr
        by_cases hpe : p = fr.comps
        · subst hpe
          refine shows_of hres (hdir ?_ ?_)
          · cases hval : fr.planted.2 with
            | none => rfl
            | some v => exact absurd (show (fr.comps, some v) ∈ _ by rw [← hval]; exact hy) (hno v)
          · by_contra hlt
            have hres0 := Faithful.resolve hK.faithful (by omega) hres
            obtain ⟨l', hl'⟩ := DirTree.leaf_some ht hres0
            rw [shows_of hres0 hl'] at hold
            cases hold
        · exact dir_of_way hres hp hpe
      · rw [Tree.way_none fun y hy hp => hway ⟨y, hy, hp⟩]
        cases hl : shows s.sh.fs cfg.root p with
        | none => rfl
        | some l =>
          obtain ⟨i, x, hx, hp⟩ := new_shown ht h hU hr hold hl
          obtain ⟨fr, hfr, -, hc⟩ := frame_of_heard h hr hx
          refine absurd ⟨fr.planted, List.mem_map_of_mem ((mem_frames h).2 ⟨i, hfr⟩), ?_⟩ hway
          rw [show fr.planted.1 = fr.comps from rfl, hc]
          exact hp

end Succeeded

/-- Succeeded, with distinct paths and no name drawn that is an entry's. -/
def Done (cfg : Cfg) (s : State) : Prop :=
  s.main = .returned (.ok (totalStats cfg s)) ∧
    (∀ i < cfg.flows, ∀ k < cfg.flows, ∀ t ∈ (s.flow i).log.scratches, ∀ x ∈ (s.flow k).log.heard,
      t.name ≠ x.2.getLastD []) ∧
    ((List.range cfg.flows).flatMap fun i => (s.flow i).log.heard.map Prod.snd).Nodup

instance (cfg : Cfg) (s : State) : Decidable (Done cfg s) := by
  unfold Done; infer_instance

/-- The directory and its file over two flows of a durable session, the file first. -/
def dealtOut : List Act := List.flatten [opening double,
  [.deliver 1 (encodeAll [fileFrame pathAB [8]] ++ [0]), .deliver 0 (encodeAll [dirFrame pathA 5] ++ [0])],
  netRuns 1 13, netRuns 0 8, writerRuns 1 10, writerRuns 0 1, List.replicate 5 (.main plain)]

end Thunderflash.Recv
