/-
Files are replaced atomically: whatever the peer sends and wherever the session stands, a path that
is only ever sent as a file holds what it held before, or one complete payload sent for it.
-/
import Thunderflash.Recv.Origin

namespace Thunderflash.Recv

open Codec Posix Fs Lts

variable {cfg : Cfg} {s : State} {fs0 : Fs} {p : List Name}

/-- The entries of `s` name path `p` as a file only, they name nothing below it, and its name is
short enough for a scratch name. -/
structure FileOnly (s : State) (p : List Name) : Prop where
  kind : ∀ {k x}, x ∈ (s.flow k).log.heard → x.2 = p → x.1.kind = .file
  below : ∀ {k x n qs}, x ∈ (s.flow k).log.heard → x.2 ≠ p ++ n :: qs
  short : (p.getLastD []).length + 21 ≤ NAME_MAX
  drawn : ∀ {k t}, t ∈ (s.flow k).log.scratches → t.name ≠ p.getLastD []

/-- No entry of `s` at another path is a hard link to what `p` led to. -/
def Unlinked (cfg : Cfg) (fs0 : Fs) (s : State) (p : List Name) : Prop :=
  ∀ {k x i}, x ∈ (s.flow k).log.heard → resolve fs0.entry cfg.root x.2 = some i →
    resolve fs0.entry cfg.root p = some i → x.2 = p

/-- What `p` leads to is what it led to, as it was: a directory with the same names and mode, or
an inode that is the same in everything. -/
structure Intact (cfg : Cfg) (fs0 fs : Fs) (p : List Name) : Prop where
  place : resolve fs.entry cfg.root p = resolve fs0.entry cfg.root p
  dir : ∀ {i}, resolve fs0.entry cfg.root p = some i → fs0.leaf i = some .dir →
    fs.leaf i = some .dir ∧ fs.mode i = fs0.mode i ∧ ∀ n, fs.entry i n = fs0.entry i n
  inode : ∀ {i}, resolve fs0.entry cfg.root p = some i → fs0.leaf i ≠ some .dir → fs.inodes[i]? = fs0.inodes[i]?

/-- Path `p` holds the payload of a complete File entry of the stream for it. -/
def Complete (cfg : Cfg) (s : State) (p : List Name) : Prop :=
  ∃ k fr i, Carries cfg (s.flow k).log.got fr ∧ fr.entry.kind = .file ∧ fr.comps = p ∧
    resolve s.sh.fs.entry cfg.root p = some i ∧ s.sh.fs.leaf i = some (.file fr.payload)

/-- A committed file holds the payload of a complete entry for its path. -/
theorem FlowInv.kept_frame {k : Nat} {t : InFlight} (hf : FlowInv cfg (s.flow k))
    (hc : Contents (fun t => t.scratch = true) s) (ht : t ∈ (s.flow k).log.kept) (hs : t.scratch = true) :
    ∃ fr ∈ (s.flow k).log.done, fr.entry.kind = .file ∧ fr.comps = t.path ∧
      s.sh.fs.leaf t.file = some (.file fr.payload) := by
  rw [← committed_keys hf.writer] at ht
  obtain ⟨⟨u, q⟩, hq, rfl⟩ := List.mem_map.1 ht
  obtain ⟨fr, hfr, hkind, hd⟩ := hf.committed_frame hq
  exact ⟨fr, hfr, hkind, hd.path.symm, by rw [hc hs (.committed hq)]; exact congrArg _ (congrArg _ hd.payload)⟩

/-- A file created for a name of directory `d` is an entry's, and `d` its parent. -/
theorem Disk.born_path (h : Disk cfg fs0 s) {k d : Nat} {t : InFlight} {ps : List Name} (hf : FlowInv cfg (s.flow k))
    (ht : t ∈ (s.flow k).log.born) (hp : Handle s.sh.fs cfg.root d ps) (hd : d = t.parent) :
    ∃ x ∈ (s.flow k).log.heard, x.2 = ps ++ [t.target] := by
  subst hd
  obtain ⟨x, hx, hxp⟩ := hf.born_heard ht
  exact ⟨x, hx, by rw [hxp, InFlight.path, h.tree.inj ((h.placed k).born t ht) hp]⟩

/-- A new inode under the path is a committed file. -/
theorem Known.complete (h : Known cfg fs0 s) (ht0 : fs0.DirTree cfg.root) (hc : Contents (fun t => t.scratch = true) s)
    (hf : ∀ k, FlowInv cfg (s.flow k)) (hp : FileOnly s p) {i : Nat} (hi : fs0.inodes.length ≤ i)
    (hr : resolve s.sh.fs.entry cfg.root p = some i) : Complete cfg s p := by
  rcases List.eq_nil_or_concat' p with rfl | ⟨ps, n, rfl⟩
  · cases hr
    exact absurd (lt_of_leaf ht0.base) (by omega)
  obtain ⟨d, hd, he⟩ := handle_of_resolve hr
  have hlast : (ps ++ [n]).getLastD [] = n := by simp
  cases h.sourced hi he with
  | dir hx hk hps _ =>
    rw [h.tree.inj hps hd] at hx
    have := hp.kind hx rfl
    rw [hk] at this; cases this
  | ancestor hx hq hps _ =>
    rw [h.tree.inj hps hd] at hx
    obtain ⟨m, qs, rfl⟩ := List.exists_cons_of_ne_nil hq
    exact absurd (by simp) (@FileOnly.below _ _ hp _ _ m qs hx)
  | link hx _ hk hcomps hps _ =>
    rw [h.tree.inj hps hd] at hcomps
    have := hp.kind hx hcomps
    rw [hk] at this; cases this
  | scratch ht _ _ hn => exact absurd (hn.symm.trans hlast.symm) (hp.drawn ht)
  | @commit k t ht hk hfile hpar hn =>
    have hs := (mem_scratches.1 ht).2
    obtain ⟨fr, hfr, hkind, hcomps, hl⟩ := (hf k).kept_frame hc hk hs
    refine ⟨k, fr, i, (hf k).carries hfr, hkind, ?_, hr, by rw [← hfile]; exact hl⟩
    subst hpar
    rw [hcomps, InFlight.path, h.tree.inj ((h.placed k).born t (mem_scratches.1 ht).1) hd, hn]
  | @place k t ht hs _ _ hn =>
    have hlong := (hf k).long ht hs
    have hshort := hp.short
    rw [hlast, hn] at hshort
    omega

/-- An old inode under the path is as it was. -/
theorem Known.intact (h : Known cfg fs0 s) (hf : ∀ k, FlowInv cfg (s.flow k)) (hp : FileOnly s p)
    (hu : Unlinked cfg fs0 s p) {i : Nat} (hi : i < fs0.inodes.length)
    (hr : resolve s.sh.fs.entry cfg.root p = some i) : Intact cfg fs0 s.sh.fs p := by
  have hr0 := Faithful.resolve h.faithful hi hr
  refine ⟨hr.trans hr0.symm, fun {j} hj hdir => ?_, fun {j} hj hdir => ?_⟩
  all_goals
    rw [hr0] at hj
    cases hj
  · -- a name in it would belong to an entry below the path
    have hleaf := h.dirs.leaf hdir
    have hnone : ∀ {k x n}, x ∈ (s.flow k).log.heard → x.2 ≠ p ++ [n] := fun hx => hp.below hx
    have hborn : ∀ {k} {t : InFlight}, t ∈ (s.flow k).log.born → i ≠ t.parent := by
      intro k t ht hpar
      obtain ⟨x, hx, hxp⟩ := h.born_path (hf k) ht ⟨hr, hleaf⟩ hpar
      exact hnone hx hxp
    refine ⟨hleaf, h.old.modes hdir, fun n => ?_⟩
    cases he0 : fs0.entry i n with
    | some r =>
      rcases h.old.lost he0 with he | hl
      · exact he
      · cases hl with
        | entry hx hxp hps _ => rw [h.tree.inj hps ⟨hr, hleaf⟩] at hxp; exact absurd hxp (hnone hx)
        | commit ht _ hpar _ _ => exact absurd hpar (hborn (mem_scratches.1 ht).1)
    | none =>
      cases he : s.sh.fs.entry i n with
      | none => rfl
      | some r =>
        have hrn : fs0.inodes.length ≤ r := by
          by_contra hlt
          rw [h.faithful (by omega) he] at he0; cases he0
        cases h.sourced hrn he with
        | dir hx _ hps _ => rw [h.tree.inj hps ⟨hr, hleaf⟩] at hx; exact absurd rfl (hnone hx)
        | ancestor hx _ hps _ => rw [h.tree.inj hps ⟨hr, hleaf⟩] at hx; exact absurd rfl (hp.below hx)
        | link hx _ _ hxp hps _ => rw [h.tree.inj hps ⟨hr, hleaf⟩] at hxp; exact absurd hxp (hnone hx)
        | scratch ht _ hpar _ => exact absurd hpar (hborn (mem_scratches.1 ht).1)
        | commit ht _ _ hpar _ => exact absurd hpar (hborn (mem_scratches.1 ht).1)
        | place ht _ _ hpar _ => exact absurd hpar (hborn ht)
  · rcases h.preserved.inode hi hdir with he | hch
    · exact he
    · cases hch with
      | times hx hk hxr _ _ => exact absurd (hp.kind hx (hu hx hxr hr0)) hk
      | place hx hlong hxr =>
        have hshort := hp.short
        rw [hu hx hxr hr0] at hlong
        omega

/-- A path that led somewhere still leads somewhere. -/
theorem Known.bound (h : Known cfg fs0 s) (hp : FileOnly s p) {i : Nat} (hr0 : resolve fs0.entry cfg.root p = some i) :
    resolve s.sh.fs.entry cfg.root p ≠ none := by
  rcases List.eq_nil_or_concat' p with rfl | ⟨ps, n, rfl⟩
  · simp
  obtain ⟨d, hd0, he0⟩ := handle_of_resolve hr0
  have hd := hd0.mono h.dirs
  rw [hd.resolve]
  rcases h.old.lost he0 with he | hl
  · rw [he]; simp
  · cases hl with
    | entry hx hxp hps hk =>
      rw [h.tree.inj hps hd] at hxp
      have hshort := hp.short
      rw [List.getLastD_concat] at hshort
      rcases hk with hk | hk
      · exact absurd (hp.kind hx hxp) hk
      · omega
    | commit _ _ _ _ he => rw [he]; simp

/-- A path that is only sent as a file holds what it held before the session or one complete payload. -/
theorem Known.atomic (hk : Known cfg fs0 s) (ht : fs0.DirTree cfg.root) (h : Reachable cfg fs0 s) (hp : FileOnly s p)
    (hu : Unlinked cfg fs0 s p) : Intact cfg fs0 s.sh.fs p ∨ Complete cfg s p := by
  have hf := fun k => flow_inv h k
  cases hr : resolve s.sh.fs.entry cfg.root p with
  | some i =>
    by_cases hi : i < fs0.inodes.length
    · exact .inl (hk.intact hf hp hu hi hr)
    · exact .inr (hk.complete ht (contents_inv h hk.sole) hf hp (by omega) hr)
  | none =>
    have hr0 : resolve fs0.entry cfg.root p = none := by
      cases hr0 : resolve fs0.entry cfg.root p with
      | none => rfl
      | some i => exact absurd hr (hk.bound hp hr0)
    left
    refine ⟨hr.trans hr0.symm, ?_, ?_⟩ <;>
    · intro i hi
      rw [hr0] at hi; cases hi

def plain : Choice := ⟨none, 0, 1, 0⟩

def entryOf (kind : Kind) (path : Str) (size : UInt64) : Entry := ⟨kind, path, size, 0o644, 0⟩

def pathA : Str := ⟨[97], by decide⟩

def pathAB : Str := ⟨[97, 47, 98], by decide⟩

/-- A name too long for a scratch name. -/
def pathLong : Str := ⟨List.replicate 235 98, by decide +kernel⟩

/-- One flow, no digests, nothing flushed. -/
def single : Cfg := ⟨0, false, false, 4, 1, 0o022, fun _ => ⟨List.replicate 32 0, by decide⟩⟩

/-- Two flows, durable. -/
def double : Cfg := { single with durable := true, flows := 2 }

def rootOnly : Fs := ⟨[⟨.dir [], 0o755, 0⟩]⟩

/-- The file at `a` has a second name, a long one. -/
def linked : Fs := ⟨[⟨.dir [([97], 1), (pathLong.bytes, 1)], 0o755, 0⟩, ⟨.file [1, 2], 0o644, 0⟩]⟩

def fileFrame (path : Str) (payload : Bytes) : Frame :=
  ⟨entryOf .file path (UInt64.ofNat payload.length), [path.bytes], payload, []⟩

def netRuns (i n : Nat) : List Act := List.replicate n (.net i plain)

def writerRuns (i n : Nat) : List Act := List.replicate n (.writer i plain)

/-- The primary connection is accepted, its manifest is empty, and the flows start. -/
def opening (cfg : Cfg) : List Act :=
  Act.deliver 0 [0] :: List.replicate (if cfg.flows = 1 then 3 else 4) (.main plain)

/-- The long name is written in place, and `a` is announced. -/
def inPlace : List Act := List.flatten [opening single,
  [.deliver 0 (encodeAll [fileFrame pathLong [9], fileFrame pathA []])], netRuns 0 11, writerRuns 0 3]

/-- Flow 0 commits `a`, fails to register the directory and is about to drop the scratch name,
which flow 1 has drawn again in the meantime; flow 1 draws it a third time before it commits. -/
def redrawn : List Act := List.flatten [opening double,
  [.deliver 0 (encodeAll [fileFrame pathA [8]]), .deliver 1 (encodeAll [fileFrame pathA [8], fileFrame pathA [8]])],
  netRuns 0 10, writerRuns 0 8, [.writer 0 { plain with fault := some Fault.EIO }],
  netRuns 1 10, writerRuns 1 7, writerRuns 0 1, netRuns 1 5, writerRuns 1 1]

/-- The log has heard these files and read nothing else. -/
def Log.Read (qs : List (Str × Bytes)) (l : Log) : Prop :=
  l.heard = qs.map (fun q => ((fileFrame q.1 q.2).entry, [q.1.bytes])) ∧
    l.got = encodeAll (qs.map fun q => fileFrame q.1 q.2)

instance (qs : List (Str × Bytes)) (l : Log) : Decidable (l.Read qs) := by unfold Log.Read; infer_instance

/-- A file a frame can carry under a path of one component. -/
structure Plain (q : Str × Bytes) : Prop where
  path : sanitize q.1.bytes = .ok [q.1.bytes]
  name : q.1.bytes.length < 65536
  size : q.2.length < 2 ^ 64

theorem Plain.whole {q : Str × Bytes} (h : Plain q) (hv : cfg.verify = false) : (fileFrame q.1 q.2).Whole cfg := by
  refine ⟨⟨by simp [fileFrame, entryOf], h.name, by simp [fileFrame, entryOf]⟩, h.path, ?_, ?_⟩
  · have hmod := Nat.mod_eq_of_lt h.size
    simpa [fileFrame, entryOf] using hmod.symm
  · simp [fileFrame, entryOf, digestOf, hv]

section Files

variable {qs : Nat → List (Str × Bytes)} {n : Name}

/-- Flows that carry files with other contents only do not complete the path. -/
theorem not_complete {i : Nat} {b : Bytes} (hv : cfg.verify = false) (hs : ∀ k, (s.flow k).log.Read (qs k))
    (hw : ∀ k, ∀ q ∈ qs k, Plain q) (hr : resolve s.sh.fs.entry cfg.root [n] = some i)
    (hl : s.sh.fs.leaf i = some (.file b)) (hb : ∀ k, ∀ q ∈ qs k, q.1.bytes = n → q.2 ≠ b) : ¬ Complete cfg s [n] := by
  rintro ⟨k, fr, j, hc, -, hcomps, hj, hjl⟩
  rw [hr] at hj
  cases hj
  rw [hl] at hjl
  cases hjl
  rw [(hs k).2] at hc
  have hwhole : ∀ x ∈ (qs k).map fun q => fileFrame q.1 q.2, x.Whole cfg := by
    intro x hx
    obtain ⟨q, hq, rfl⟩ := List.mem_map.1 hx
    exact (hw k q hq).whole hv
  obtain ⟨q, hq, rfl⟩ := List.mem_map.1 (hc.mem hwhole)
  exact hb k q hq (List.cons.inj hcomps).1 rfl

/-- Flows that carry files only, under paths of one component, keep such a path a file's. -/
theorem fileOnly_of (hs : ∀ k, (s.flow k).log.Read (qs k)) (hn : n.length + 21 ≤ NAME_MAX)
    (hd : ∀ k, ∀ t ∈ (s.flow k).log.scratches, t.name ≠ n) : FileOnly s [n] := by
  have hx : ∀ {k x}, x ∈ (s.flow k).log.heard → x.1.kind = .file ∧ x.2.length = 1 := by
    intro k x hx
    rw [(hs k).1] at hx
    obtain ⟨q, -, rfl⟩ := List.mem_map.1 hx
    exact ⟨rfl, rfl⟩
  exact ⟨fun h _ => (hx h).1, fun h he => by have := (hx h).2; rw [he] at this; simp at this, hn, fun ht => hd _ _ ht⟩

end Files

/-- `a` arrives and is committed. -/
def copied : List Act := List.flatten [opening single, [.deliver 0 (encodeAll [fileFrame pathA [8]])],
  netRuns 0 9, writerRuns 0 7]

/-- Without the assumption on hard links a file can be torn, -/
theorem torn_linked : ∃ s, Reachable single linked s ∧ Drawn s ∧ FileOnly s [[97]] ∧
    ¬ Intact single linked s.sh.fs [[97]] ∧ ¬ Complete single s [[97]] := by
  have hrun : ((run (step single) (.init single linked) inPlace).any fun s =>
      decide ((s.flow 0).log.Read [(pathLong, [9]), (pathA, [])] ∧ (s.flow 0).log.scratches = [] ∧
        resolve s.sh.fs.entry 0 [[97]] = some 1 ∧ s.sh.fs.leaf 1 = some (.file [9]))) = true := by decide +kernel
  obtain ⟨s, hs, hv⟩ := (Option.any_eq_true _ _).1 hrun
  obtain ⟨hread, hnone, hr, hl⟩ := of_decide_eq_true hv
  have hreach : Reachable single linked s := .of_run hs
  have hlog := forall_log (P := fun l => ∃ qs, (∀ q ∈ qs, Plain q ∧ (q.1.bytes = [97] → q.2 ≠ [9])) ∧
    l.Read qs ∧ l.scratches = []) hreach ⟨[], by simp, ⟨rfl, rfl⟩, rfl⟩ fun i hi => by
      obtain rfl : i = 0 := by simpa [single] using hi
      refine ⟨_, ?_, hread, hnone⟩
      rintro q hq
      rcases List.mem_pair.1 hq with rfl | rfl
      · exact ⟨⟨by decide +kernel, by decide +kernel, by decide⟩, by decide +kernel⟩
      · exact ⟨⟨by decide +kernel, by decide, by decide⟩, by decide⟩
  choose qs hqs hreads hdrawn using hlog
  refine ⟨s, hreach, ⟨fun {i k t x} ht _ => ?_, fun i => by simp [hdrawn], fun {i k x} hx _ => by simp [hdrawn] at hx⟩,
    fileOnly_of hreads (by decide) fun k t ht => by (rw [hdrawn] at ht; cases ht), fun hi => ?_,
    not_complete rfl hreads (fun k q hq => (hqs k q hq).1) hr hl fun k q hq => (hqs k q hq).2⟩
  · rw [hdrawn] at ht; cases ht
  · have hsame := hi.inode (i := 1) (by decide +kernel) (by decide +kernel)
    rw [(leaf_of_inode hsame).1] at hl
    exact absurd hl (by decide +kernel)

/-- and without the one that no name is drawn twice. -/
theorem torn_redrawn : ∃ s, Reachable double rootOnly s ∧
    (∀ {i k t x}, t ∈ (s.flow i).log.scratches → x ∈ (s.flow k).log.heard → t.name ≠ x.2.getLastD []) ∧
    FileOnly s [[97]] ∧ Unlinked double rootOnly s [[97]] ∧
    ¬ Intact double rootOnly s.sh.fs [[97]] ∧ ¬ Complete double s [[97]] := by
  have hrun : ((run (step double) (.init double rootOnly) redrawn).any fun s =>
      decide ((s.flow 0).log.Read [(pathA, [8])] ∧ (s.flow 1).log.Read [(pathA, [8]), (pathA, [8])] ∧
        (∀ t ∈ (s.flow 0).log.scratches ++ (s.flow 1).log.scratches, t.name ≠ [97]) ∧
        resolve s.sh.fs.entry 0 [[97]] = some 3 ∧ s.sh.fs.leaf 3 = some (.file []))) = true := by decide +kernel
  obtain ⟨s, hs, hv⟩ := (Option.any_eq_true _ _).1 hrun
  obtain ⟨hread0, hread1, hnames, hr, hl⟩ := of_decide_eq_true hv
  have hreach : Reachable double rootOnly s := .of_run hs
  have hlog := forall_log (P := fun l => ∃ qs, (∀ q ∈ qs, q = (pathA, [8])) ∧ l.Read qs ∧
    ∀ t ∈ l.scratches, t.name ≠ [97]) hreach ⟨[], by simp, ⟨rfl, rfl⟩, by simp [Log.scratches, Log.init]⟩ fun i hi => by
      have hi2 : i = 0 ∨ i = 1 := by have : i < 2 := hi; omega
      rcases hi2 with rfl | rfl
      · exact ⟨_, by simp, hread0, fun t ht => hnames t (List.mem_append_left _ ht)⟩
      · exact ⟨_, by simp, hread1, fun t ht => hnames t (List.mem_append_right _ ht)⟩
  choose qs hqs hreads hdrawn using hlog
  have hplain : Plain (pathA, [8]) := ⟨by decide +kernel, by decide, by decide⟩
  refine ⟨s, hreach, fun {i k t x} ht hx => ?_, fileOnly_of hreads (by decide) hdrawn, fun {k x i} _ _ h0 => ?_,
    fun hi => ?_, not_complete rfl hreads (fun k q hq => by rw [hqs k q hq]; exact hplain) hr hl
      fun k q hq _ => by rw [hqs k q hq]; decide⟩
  · rw [(hreads k).1] at hx
    obtain ⟨q, hq, rfl⟩ := List.mem_map.1 hx
    rw [hqs k q hq]
    exact hdrawn i t ht
  · have hnone : resolve rootOnly.entry double.root [[97]] = none := by decide +kernel
    rw [hnone] at h0; cases h0
  · exact absurd (hr.symm.trans hi.place) (by decide +kernel)

end Thunderflash.Recv
