/-
The net thread's invariant: what it has consumed is the frames it completed and the one under way,
and what it has sent is those files' messages, in order.
-/
import Thunderflash.Recv.Log
import Thunderflash.Posix.Calls

namespace Thunderflash.Recv

open Codec Posix

/-! ## The invariant -/

/-- The token that `j`'s file travels as. -/
structure InFlight.For (t : InFlight) (j : Job) : Prop where
  parent : t.parent = j.dir
  dirs : t.dirs = j.parents
  target : t.target = j.name
  mtime : t.mtime = j.entry.mtime
  mode : t.mode = j.entry.mode
  name : (∃ draw, t.finalName = some j.name ∧ t.name = scratchName j.name draw) ∨
    (t.finalName = none ∧ t.name = j.name ∧ NAME_MAX < j.name.length + 21)

theorem InFlight.For.path {t : InFlight} {j : Job} (h : t.For j) : t.path = j.comps := by
  rw [InFlight.path, h.dirs, h.target, Job.comps]

/-- The frame of the entry under way, as far as read. -/
def frameOf (j : Job) (log : Log) : Frame := ⟨j.entry, j.comps, log.part, log.trailer⟩

/-- What holds of a flow's log at all times. -/
structure LogOk (cfg : Cfg) (log : Log) : Prop where
  whole : ∀ fr ∈ log.done, fr.Whole cfg
  files : List.Forall₂ Delivered (tally log.sent).files (log.done.filter Frame.isFile)
  heard : log.done.map (fun fr => (fr.entry, fr.comps)) <+: log.heard
  sane : ∀ x ∈ log.heard, sanitize x.1.path.bytes = .ok x.2
  born : (log.born.map InFlight.path).Sublist (log.heard.map Prod.snd)
  name : ∀ t ∈ log.born, ∃ j, t.For j
  got : ∃ tail, log.got = encodeAll log.done ++ tail

/-- No file is under way. -/
structure Quiet (cfg : Cfg) (log : Log) : Prop where
  current : (tally log.sent).current = none
  hashed : (sunk cfg log.sent).1 = []
  born : log.born = (tally log.sent).files.map Prod.fst

/-- Nothing of an entry has been read past its header. -/
structure Idle (cfg : Cfg) (log : Log) : Prop extends Quiet cfg log where
  part : log.part = []
  trailer : log.trailer = []

/-- `j`'s file has been created, and `p` of it sent. -/
def Opened (j : Job) (p : Bytes) (log : Log) : Prop :=
  ∃ t : InFlight, t.For j ∧ (tally log.sent).current = some (t, p) ∧
    log.born = (tally log.sent).files.map Prod.fst ++ [t]

/-- What holds at each stage of entry `j`. -/
def StageOk (cfg : Cfg) (j : Job) (log : Log) : Stage → Prop
  | .walkRoot => Idle cfg log
  | .walkMk done component todo | .walkOpen done component todo =>
    Idle cfg log ∧ j.parents = done ++ component :: todo
  | .dirMk | .dirStamp => Idle cfg log ∧ j.entry.kind = .dir
  | .linkRead => Idle cfg log ∧ j.entry.kind = .symlink
  | .linkDigest target =>
    Quiet cfg log ∧ j.entry.kind = .symlink ∧ cfg.verify = true ∧ log.part = target ∧
      target.length = j.entry.size.toNat ∧ log.trailer = []
  | .linkUnlink target | .linkMake target =>
    Quiet cfg log ∧ j.entry.kind = .symlink ∧ log.part = target ∧ utf8 target = true ∧ (frameOf j log).Whole cfg
  | .linkStamp => Quiet cfg log ∧ j.entry.kind = .symlink ∧ (frameOf j log).Whole cfg
  | .register => Quiet cfg log ∧ j.entry.kind ≠ .file ∧ (frameOf j log).Whole cfg
  | .tempCreate _ => Idle cfg log ∧ j.entry.kind = .file
  | .placeCreate _ | .placeUnlink => Idle cfg log ∧ j.entry.kind = .file ∧ NAME_MAX < j.name.length + 21
  | .sendBegin t | .dropBegin t =>
    j.entry.kind = .file ∧ t.For j ∧ (tally log.sent).current = none ∧ (sunk cfg log.sent).1 = [] ∧
      log.born = (tally log.sent).files.map Prod.fst ++ [t] ∧ log.part = [] ∧ log.trailer = []
  | .takeBuf remaining | .readBuf remaining =>
    j.entry.kind = .file ∧ 0 < remaining ∧ log.part.length + remaining = j.entry.size.toNat ∧
      log.trailer = [] ∧ Opened j log.part log ∧ (cfg.verify = true → (sunk cfg log.sent).1 = log.part)
  | .sendData remaining bytes =>
    j.entry.kind = .file ∧ log.part.length + remaining = j.entry.size.toNat ∧ log.trailer = [] ∧
      ∃ p, log.part = p ++ bytes ∧ Opened j p log ∧ (cfg.verify = true → (sunk cfg log.sent).1 = p)
  | .sendFinish =>
    j.entry.kind = .file ∧ cfg.verify = true ∧ log.part.length = j.entry.size.toNat ∧ log.trailer = [] ∧
      Opened j log.part log ∧ (sunk cfg log.sent).1 = log.part
  | .awaitDigest =>
    j.entry.kind = .file ∧ cfg.verify = true ∧ log.part.length = j.entry.size.toNat ∧ log.trailer = [] ∧
      Opened j log.part log ∧ (sunk cfg log.sent).1 = []
  | .fileDigest actual =>
    j.entry.kind = .file ∧ cfg.verify = true ∧ log.part.length = j.entry.size.toNat ∧ log.trailer = [] ∧
      Opened j log.part log ∧ (sunk cfg log.sent).1 = [] ∧ actual = cfg.blake3 log.part
  | .sendEnd =>
    j.entry.kind = .file ∧ (frameOf j log).Whole cfg ∧ Opened j log.part log ∧ (sunk cfg log.sent).1 = []

/-- What holds of entry `j` while it is under way. -/
structure JobOk (j : Job) (log : Log) : Prop where
  framed : j.entry.Framed
  path : sanitize j.entry.path.bytes = .ok j.comps
  heard : log.heard = log.done.map (fun fr => (fr.entry, fr.comps)) ++ [(j.entry, j.comps)]
  got : log.got = encodeAll log.done ++ (frameOf j log).encode

def PcOk (cfg : Cfg) (log : Log) : NetPc → Prop
  | .openRoot | .registerRoot | .decode =>
    Idle cfg log ∧ log.heard = log.done.map (fun fr => (fr.entry, fr.comps)) ∧ log.got = encodeAll log.done
  | .at j st => JobOk j log ∧ StageOk cfg j log st
  | .finished (.ok _) =>
    Quiet cfg log ∧ log.heard = log.done.map (fun fr => (fr.entry, fr.comps)) ∧ log.got = encodeAll log.done ++ [0]
  | .finished (.error _) => True

structure NetInv (cfg : Cfg) (fl : Flow) : Prop where
  log : LogOk cfg fl.log
  pc : PcOk cfg fl.log fl.net

theorem NetInv.init (cfg : Cfg) : NetInv cfg (.init cfg) where
  log := ⟨by simp [Flow.init, Log.init], by simp [Flow.init, Log.init], by simp [Flow.init, Log.init],
    by simp [Flow.init, Log.init], by simp [Flow.init, Log.init], by simp [Flow.init, Log.init],
    ⟨[], by simp [Flow.init, Log.init]⟩⟩
  pc := ⟨⟨⟨rfl, rfl, rfl⟩, rfl, rfl⟩, rfl, rfl⟩

/-- At a quiet moment the files created are those of the frames completed. -/
theorem Quiet.born_sublist {cfg : Cfg} {log : Log} (hq : Quiet cfg log) (hl : LogOk cfg log) :
    (log.born.map InFlight.path).Sublist (log.done.map Frame.comps) := by
  have hf : ∀ {fs : List (InFlight × Bytes)} {frs : List Frame}, List.Forall₂ Delivered fs frs →
      (fs.map Prod.fst).map InFlight.path = frs.map Frame.comps := by
    intro fs frs h
    induction h with
    | nil => rfl
    | cons hd _ ih => simp only [List.map_cons, hd.path, ih]
  rw [hq.born, hf hl.files]
  exact List.filter_sublist.map _

section

variable {cfg : Cfg} {j : Job}

/-- Moving a job to another directory does not change what is known of its entry. -/
theorem JobOk.dir {log : Log} (hj : JobOk j log) (d : Nat) : JobOk { j with dir := d } log :=
  ⟨hj.framed, hj.path, hj.heard, hj.got⟩

theorem LogOk.read {log : Log} (h : LogOk cfg log) (bs : Bytes) (part trailer : Bytes) :
    LogOk cfg { log with got := log.got ++ bs, part, trailer } := by
  obtain ⟨tail, ht⟩ := h.got
  exact ⟨h.whole, h.files, h.heard, h.sane, h.born, h.name, ⟨tail ++ bs, by simp [ht]⟩⟩

theorem JobOk.read_payload {log : Log} (h : JobOk j log) (ht : log.trailer = []) (bs : Bytes) :
    JobOk j { log with got := log.got ++ bs, part := log.part ++ bs } :=
  ⟨h.framed, h.path, h.heard, by simp [h.got, frameOf, Frame.encode, ht]⟩

theorem JobOk.read_trailer {log : Log} (h : JobOk j log) (ht : log.trailer = []) (bs : Bytes) :
    JobOk j { log with got := log.got ++ bs, trailer := bs } :=
  ⟨h.framed, h.path, h.heard, by simp [h.got, frameOf, Frame.encode, ht]⟩

/-- Every message but `EndFile` completes no file. -/
theorem LogOk.push {log : Log} (h : LogOk cfg log) {m : Msg} (hm : m ≠ .endFile) :
    LogOk cfg { log with sent := log.sent ++ [m] } := by
  refine ⟨h.whole, ?_, h.heard, h.sane, h.born, h.name, h.got⟩
  have : (tally (log.sent ++ [m])).files = (tally log.sent).files := by
    rw [tally_snoc]
    cases m <;> first | rfl | exact absurd rfl hm
  simpa only [this] using h.files

theorem JobOk.sent {log : Log} (h : JobOk j log) (sent : List Msg) : JobOk j { log with sent } :=
  ⟨h.framed, h.path, h.heard, h.got⟩

theorem stage_data (hasher bytes : Bytes) : (stage cfg hasher (.data bytes)).1 =
    if cfg.verify then hasher ++ bytes else hasher := by
  unfold stage; split <;> rfl

theorem stage_begin (hasher : Bytes) (t : InFlight) : (stage cfg hasher (.begin t)).1 = hasher := by
  unfold stage; split <;> rfl

theorem stage_endFile (hasher : Bytes) : (stage cfg hasher .endFile).1 = hasher := by
  unfold stage; split <;> rfl

end

theorem take_consumed (bs : Bytes) (n : Nat) : bs.take (bs.length - (bs.drop n).length) = bs.take n := by
  rw [List.length_drop]
  by_cases h : n ≤ bs.length
  · congr 1; omega
  · rw [List.take_of_length_le (by omega), List.take_of_length_le (by omega)]

namespace Flow

/-! ## Steps inside an entry -/

section

variable {cfg : Cfg} {j : Job} {fl : Flow}

theorem fail_inv (h : LogOk cfg fl.log) (e : Err) : NetInv cfg (fl.fail e) := ⟨h, trivial⟩

theorem goto_inv {st : Stage} (h : LogOk cfg fl.log) (hj : JobOk j fl.log) (hs : StageOk cfg j fl.log st) :
    NetInv cfg (fl.goto j st) := ⟨h, hj, hs⟩

theorem dispatch_inv (h : LogOk cfg fl.log) (hj : JobOk j fl.log) (hi : Idle cfg fl.log) :
    NetInv cfg (fl.dispatch j) := by
  unfold dispatch
  split
  · exact goto_inv h hj ⟨hi, by assumption⟩
  · exact goto_inv h hj ⟨hi, by assumption⟩
  · exact goto_inv h hj ⟨hi, by assumption⟩
  · exact fail_inv h _

theorem arrive_inv (h : LogOk cfg fl.log) (hj : JobOk j fl.log) (hi : Idle cfg fl.log) :
    NetInv cfg (fl.arrive j) := by
  unfold arrive
  exact dispatch_inv h hj hi

theorem complete_inv (sent : List Msg) (h : LogOk cfg { fl.log with sent }) (hj : JobOk j fl.log) (hw : (frameOf j fl.log).Whole cfg)
    (hq : Quiet cfg fl.log)
    (hf : List.Forall₂ Delivered (tally fl.log.sent).files
      ((fl.log.done ++ [frameOf j fl.log]).filter Frame.isFile)) : NetInv cfg (fl.complete j) where
  log := by
    refine ⟨?_, hf, ?_, h.sane, h.born, h.name, ⟨[], ?_⟩⟩
    · intro fr hfr
      rcases List.mem_append.1 hfr with hfr | hfr
      · exact h.whole fr hfr
      · rw [List.mem_singleton] at hfr; rw [hfr]; exact hw
    · simp only [complete, List.map_append, List.map_cons, List.map_nil, hj.heard]
      exact List.prefix_refl _
    · simp only [complete, encodeAll_append, encodeAll_cons, encodeAll_nil, List.append_nil]
      exact hj.got
  pc := by
    refine ⟨⟨⟨hq.current, hq.hashed, hq.born⟩, rfl, rfl⟩, ?_, ?_⟩
    · simp only [complete, List.map_append, List.map_cons, List.map_nil]; exact hj.heard
    · simp only [complete, encodeAll_append, encodeAll_cons, encodeAll_nil, List.append_nil]
      exact hj.got

/-- A directory or symlink is complete once it is made. -/
theorem complete_made (h : LogOk cfg fl.log) (hj : JobOk j fl.log) (hw : (frameOf j fl.log).Whole cfg)
    (hq : Quiet cfg fl.log) (hk : j.entry.kind ≠ .file) : NetInv cfg (fl.complete j) := by
  refine complete_inv fl.log.sent h hj hw hq ?_
  have hno : Frame.isFile (frameOf j fl.log) = false := by simpa [Frame.isFile, frameOf] using hk
  simpa [hno] using h.files

theorem made_inv (h : LogOk cfg fl.log) (hj : JobOk j fl.log) (hw : (frameOf j fl.log).Whole cfg)
    (hq : Quiet cfg fl.log) (hk : j.entry.kind ≠ .file) : NetInv cfg (fl.made cfg j) := by
  unfold made
  split
  · exact goto_inv h hj ⟨hq, hk, hw⟩
  · exact complete_made h hj hw hq hk

theorem whole_dir (hj : JobOk j fl.log) (hi : Idle cfg fl.log) (hk : j.entry.kind = .dir) :
    (frameOf j fl.log).Whole cfg :=
  ⟨hj.framed, hj.path, by simp [frameOf, hi.part, hk], by simp [frameOf, hi.trailer, hk]⟩

/-! ## Reading -/

@[simp] theorem consume_drop_log (fl : Flow) (n : Nat) :
    (fl.consume (fl.wire.drop n)).log = { fl.log with got := fl.log.got ++ fl.wire.take n } := by
  simp only [consume, take_consumed]

theorem consume_append_log (fl : Flow) {a rest : Bytes} (h : fl.wire = a ++ rest) :
    (fl.consume rest).log = { fl.log with got := fl.log.got ++ a } := by
  have : fl.wire.take (fl.wire.length - rest.length) = a := by simp [h]
  simp only [consume, this]

theorem readExact_some {c : Choice} {n : Nat} {fl : Flow} {bs : Bytes}
    (h : fl.readExact c n = some (.ok bs)) : bs = fl.wire.take n ∧ bs.length = n := by
  unfold readExact at h
  split at h
  · cases h
  · split at h
    · cases h; simp; omega
    · split at h <;> cases h

theorem linkText_inv {target : Bytes} (h : LogOk cfg fl.log) (hj : JobOk j fl.log) (hq : Quiet cfg fl.log)
    (hk : j.entry.kind = .symlink) (hp : fl.log.part = target) (hw : (frameOf j fl.log).Whole cfg) :
    NetInv cfg (fl.linkText j target) := by
  unfold linkText
  split
  · exact goto_inv h hj ⟨hq, hk, hp, by assumption, hw⟩
  · exact fail_inv h _

/-! ## Sending -/

@[simp] theorem push_log (m : Msg) (fl : Flow) :
    (fl.push cfg m).log = { fl.log with sent := fl.log.sent ++ [m] } := by
  unfold push; dsimp only; split <;> rfl

@[simp] theorem push_net (m : Msg) (fl : Flow) : (fl.push cfg m).net = fl.net := by
  unfold push; dsimp only; split <;> rfl

theorem send_some {m : Msg} {next gone : Flow → Flow} {fl fl' : Flow} (h : fl.send cfg m next gone = some fl') :
    (fl.sinkClosed cfg ∧ fl' = gone fl) ∨ (¬ fl.sinkClosed cfg ∧ fl.sinkRoom cfg ∧ fl' = next (fl.push cfg m)) := by
  unfold send at h
  split at h
  · cases h; exact .inl ⟨by assumption, rfl⟩
  · split at h
    · cases h; exact .inr ⟨by assumption, by assumption, rfl⟩
    · cases h

/-- The head of the payload loop, once `part` has been sent. -/
theorem pump_inv {remaining : Nat} (h : LogOk cfg fl.log) (hj : JobOk j fl.log) (hk : j.entry.kind = .file)
    (hl : fl.log.part.length + remaining = j.entry.size.toNat) (ht : fl.log.trailer = [])
    (ho : Opened j fl.log.part fl.log)
    (hh : (sunk cfg fl.log.sent).1 = if cfg.verify then fl.log.part else []) :
    NetInv cfg (fl.pump cfg j remaining) := by
  unfold pump
  by_cases hr : 0 < remaining
  · rw [if_pos hr]
    exact goto_inv h hj ⟨hk, hr, hl, ht, ho, fun hv => by simpa [hv] using hh⟩
  · rw [if_neg hr]
    have hl' : fl.log.part.length = j.entry.size.toNat := by omega
    by_cases hv : cfg.verify = true
    · rw [if_pos hv]
      exact goto_inv h hj ⟨hk, hv, hl', ht, ho, by simpa [hv] using hh⟩
    · rw [if_neg hv]
      refine goto_inv h hj ⟨hk, ⟨hj.framed, hj.path, ?_, ?_⟩, ho, by simpa [hv] using hh⟩
      · simpa [frameOf, hk] using hl'
      · simp [frameOf, hk, ht, digestOf, hv]

/-! ## Every step -/

theorem start_inv {e : Entry} {fl : Flow} (h : LogOk cfg fl.log) (he : e.Framed) (hi : Idle cfg fl.log)
    (hh : fl.log.heard = fl.log.done.map fun fr => (fr.entry, fr.comps))
    (hg : fl.log.got = encodeAll fl.log.done ++ e.encode) : NetInv cfg (fl.start cfg e) := by
  unfold start
  split
  · exact fail_inv h _
  · rename_i comps hs
    have hne := (sanitize_ok hs).1
    have hc : comps.dropLast ++ [comps.getLastD []] = comps := by
      rw [List.getLastD_eq_getLast?, List.getLast?_eq_getLast_of_ne_nil hne]
      exact List.dropLast_append_getLast hne
    have hlog : LogOk cfg { fl.log with heard := fl.log.heard ++ [(e, comps)] } := by
      refine ⟨h.whole, h.files, by rw [hh]; exact List.prefix_append .., ?_, ?_, h.name, h.got⟩
      · intro x hx
        rcases List.mem_append.1 hx with hx | hx
        · exact h.sane x hx
        · rw [List.mem_singleton] at hx; subst hx; exact hs
      · rw [List.map_append]
        exact h.born.trans (List.sublist_append_left ..)
    have hj : ∀ d, JobOk ⟨e, comps.dropLast, comps.getLastD [], d⟩
        { fl.log with heard := fl.log.heard ++ [(e, comps)] } := fun d =>
      ⟨he, by rw [Job.comps, hc]; exact hs, by rw [Job.comps, hc, hh],
        by rw [hg]; simp [frameOf, Frame.encode, hi.part, hi.trailer]⟩
    have hi' : Idle cfg { fl.log with heard := fl.log.heard ++ [(e, comps)] } :=
      ⟨⟨hi.current, hi.hashed, hi.born⟩, hi.part, hi.trailer⟩
    dsimp only
    split
    · split
      · exact dispatch_inv hlog (hj _) hi'
      · exact goto_inv hlog (hj _) hi'
    · exact goto_inv hlog (hj _) hi'

/-- The net thread's own steps keep its invariant, given that a reply is the digest of the payload. -/
theorem netLocal_inv {c : Choice} {sh sh' : Shared} {fl fl' : Flow} (h : NetInv cfg fl)
    (hr : ∀ d, fl.reply = some d → d = cfg.blake3 fl.log.part)
    (hs : fl.netLocal cfg c sh = some (sh', fl')) : NetInv cfg fl' := by
  have hl := h.log
  have hp := h.pc
  unfold netLocal at hs
  split at hs
  case h_1 hn =>
    rw [hn] at hp
    split at hs <;> cases hs
    · exact fail_inv hl _
    · refine ⟨hl, ?_⟩
      dsimp only
      split <;> exact hp
  case h_2 hn =>
    rw [hn] at hp
    obtain ⟨hi, hh, hg⟩ := hp
    split at hs
    · cases hs; exact fail_inv hl _
    · split at hs <;> cases hs
      exact fail_inv hl _
    · cases hs; exact fail_inv hl _
    · rename_i rest hf hd
      cases hs
      have hw := Entry.decode_none hd
      have hc := consume_append_log fl (a := [0]) hw
      refine ⟨?_, ?_⟩
      · dsimp only; rw [hc]; exact hl.read [0] _ _
      · dsimp only [PcOk]; rw [hc]; exact ⟨⟨hi.current, hi.hashed, hi.born⟩, hh, by rw [hg]⟩
    · rename_i e rest hf hd
      cases hs
      obtain ⟨hw, he⟩ := Entry.decode_some hd
      have hc := consume_append_log fl hw
      refine start_inv (by rw [hc]; exact hl.read _ _ _) he ?_ (by rw [hc]; exact hh) (by rw [hc]; simp [hg])
      rw [hc]; exact ⟨⟨hi.current, hi.hashed, hi.born⟩, hi.part, hi.trailer⟩
  case h_3 j hn =>
    rw [hn] at hp
    obtain ⟨hj, hi⟩ := hp
    split at hs <;> cases hs
    · exact fail_inv hl _
    · exact arrive_inv hl (JobOk.dir hj _) hi
    · rename_i hps
      exact goto_inv hl (JobOk.dir hj _) ⟨hi, by simpa using hps⟩
  case h_4 j hn =>
    rw [hn] at hp
    obtain ⟨hj, hi, hk⟩ := hp
    obtain ⟨r, hre, hs⟩ := Option.map_eq_some_iff.1 hs
    cases r with
    | error e => cases hs; exact fail_inv hl _
    | ok target =>
      cases hs
      obtain ⟨ht, htl⟩ := readExact_some hre
      have hj' := hj.read_payload hi.trailer target
      rw [hi.part, List.nil_append] at hj'
      have hl' := hl.read target target fl.log.trailer
      have hq : Quiet cfg { fl.log with got := fl.log.got ++ target, part := target } :=
        ⟨hi.current, hi.hashed, hi.born⟩
      have hlog : (fl.consume (fl.wire.drop target.length)).log = { fl.log with got := fl.log.got ++ target } := by
        rw [consume_drop_log, htl, ← ht]
      dsimp only
      by_cases hv : cfg.verify = true
      · rw [if_pos hv]
        refine goto_inv ?_ ?_ ⟨?_, hk, hv, rfl, htl, ?_⟩ <;> simp only [hlog]
        exacts [hl', hj', hq, hi.trailer]
      · rw [if_neg hv]
        refine linkText_inv ?_ ?_ ?_ hk rfl ?_ <;> simp only [hlog]
        · exact hl'
        · exact hj'
        · exact hq
        · exact ⟨hj.framed, hj.path, by simp [frameOf, hk, htl], by simp [frameOf, hk, hi.trailer, digestOf, hv]⟩
  case h_5 j target hn =>
    rw [hn] at hp
    obtain ⟨hj, hq, hk, hv, hpart, htl, htr⟩ := hp
    obtain ⟨r, hre, hs⟩ := Option.map_eq_some_iff.1 hs
    cases r with
    | error e => cases hs; exact fail_inv hl _
    | ok expected =>
      cases hs
      obtain ⟨ht, hel⟩ := readExact_some hre
      have hj' := hj.read_trailer htr expected
      have hl' := hl.read expected fl.log.part expected
      have hlog : (fl.consume (fl.wire.drop expected.length)).log = { fl.log with got := fl.log.got ++ expected } := by
        rw [consume_drop_log, hel, ← ht]
      dsimp only
      by_cases he : expected = (cfg.blake3 target).bytes
      · rw [if_pos he]
        refine linkText_inv ?_ ?_ ?_ hk ?_ ?_ <;> simp only [hlog]
        · exact hl'
        · exact hj'
        · exact ⟨hq.current, hq.hashed, hq.born⟩
        · exact hpart
        · exact ⟨hj.framed, hj.path, by simp [frameOf, hk, hpart, htl],
            by simp [frameOf, hk, hpart, he, digestOf, hv]⟩
      · rw [if_neg he]
        refine fail_inv ?_ _
        simp only [hlog]
        exact hl'
  case h_6 j target hn =>
    split at hs <;> cases hs
    exact fail_inv hl _
  case h_7 j t hn =>
    rw [hn] at hp
    obtain ⟨hj, hk, hfor, hcur, hsunk, hborn, hpart, htr⟩ := hp
    obtain ⟨fl1, hs1, hs⟩ := Option.map_eq_some_iff.1 hs
    cases hs
    rcases send_some hs1 with ⟨-, rfl⟩ | ⟨-, -, rfl⟩
    · exact goto_inv hl hj ⟨hk, hfor, hcur, hsunk, hborn, hpart, htr⟩
    · refine pump_inv (by rw [push_log]; exact hl.push (by simp)) (by rw [push_log]; exact hj.sent _) hk ?_ ?_ ?_ ?_
        <;> simp only [push_log]
      · simp [hpart]
      · exact htr
      · exact ⟨t, hfor, by simp [Tally.next, hpart], by simpa [Tally.next] using hborn⟩
      · rw [sunk_snoc, stage_begin, hsunk, hpart]; simp
  case h_8 j remaining hn =>
    rw [hn] at hp
    split at hs
    · cases hs; exact ⟨hl, hp⟩
    · split at hs <;> cases hs
      exact fail_inv hl _
  case h_9 j remaining hn =>
    rw [hn] at hp
    obtain ⟨hj, hk, hpos, hlen, htr, ho, hh⟩ := hp
    split at hs
    · cases hs; exact fail_inv hl _
    · split at hs
      · rename_i hc
        obtain ⟨hc0, hc1, hc2⟩ := hc
        cases hs
        have hbl : (fl.wire.take c.count).length = c.count := by simp; omega
        refine goto_inv ?_ ?_ ⟨hk, ?_, ?_, ?_⟩ <;> simp only [consume_drop_log]
        · exact hl.read _ _ _
        · exact hj.read_payload htr _
        · rw [List.length_append, hbl]; omega
        · exact htr
        · exact ⟨fl.log.part, rfl, ho, hh⟩
      · split at hs <;> cases hs
        exact fail_inv hl _
  case h_10 j remaining bytes hn =>
    rw [hn] at hp
    obtain ⟨hj, hk, hlen, htr, p, hpart, ⟨t, hfor, hcur, hborn⟩, hh⟩ := hp
    obtain ⟨fl1, hs1, hs⟩ := Option.map_eq_some_iff.1 hs
    cases hs
    rcases send_some hs1 with ⟨-, rfl⟩ | ⟨-, -, rfl⟩
    · exact fail_inv hl _
    · refine pump_inv (by rw [push_log]; exact hl.push (by simp)) (by rw [push_log]; exact hj.sent _) hk ?_ ?_ ?_ ?_
        <;> simp only [push_log]
      · exact hlen
      · exact htr
      · exact ⟨t, hfor, by simp [Tally.next, hcur, hpart], by simpa [Tally.next] using hborn⟩
      · rw [sunk_snoc, stage_data]
        by_cases hv : cfg.verify = true
        · simp [hv, hh hv, hpart]
        · simp [hv, sunk_of_not_verify (by simpa using hv)]
  case h_11 j hn =>
    rw [hn] at hp
    obtain ⟨hj, hk, hv, hlen, htr, ⟨t, hfor, hcur, hborn⟩, hh⟩ := hp
    obtain ⟨fl1, hs1, hs⟩ := Option.map_eq_some_iff.1 hs
    cases hs
    rcases send_some hs1 with ⟨-, rfl⟩ | ⟨-, -, rfl⟩
    · exact fail_inv hl _
    · refine goto_inv ?_ ?_ ⟨hk, hv, ?_, ?_, ?_, ?_⟩ <;> simp only [push_log]
      · exact hl.push (by simp)
      · exact hj.sent _
      · exact hlen
      · exact htr
      · exact ⟨t, hfor, by simpa [Tally.next] using hcur, by simpa [Tally.next] using hborn⟩
      · rw [sunk_snoc]; simp [stage, hv]
  case h_12 j hn =>
    rw [hn] at hp
    obtain ⟨hj, hk, hv, hlen, htr, ho, hh⟩ := hp
    split at hs
    · rename_i d hd
      cases hs
      exact goto_inv hl hj ⟨hk, hv, hlen, htr, ho, hh, hr d hd⟩
    · split at hs <;> cases hs
      exact fail_inv hl _
    · cases hs
  case h_13 j actual hn =>
    rw [hn] at hp
    obtain ⟨hj, hk, hv, hlen, htr, ho, hh, hact⟩ := hp
    obtain ⟨r, hre, hs⟩ := Option.map_eq_some_iff.1 hs
    cases r with
    | error e => cases hs; exact fail_inv hl _
    | ok expected =>
      cases hs
      obtain ⟨ht, hel⟩ := readExact_some hre
      have hj' := hj.read_trailer htr expected
      have hl' := hl.read expected fl.log.part expected
      have hlog : (fl.consume (fl.wire.drop expected.length)).log = { fl.log with got := fl.log.got ++ expected } := by
        rw [consume_drop_log, hel, ← ht]
      dsimp only
      by_cases he : expected = actual.bytes
      · rw [if_pos he]
        refine goto_inv ?_ ?_ ⟨hk, ?_, ?_, ?_⟩ <;> simp only [hlog]
        · exact hl'
        · exact hj'
        · exact ⟨hj.framed, hj.path, by simpa [frameOf, hk] using hlen,
            by simp [frameOf, hk, he, hact, digestOf, hv]⟩
        · exact ho
        · exact hh
      · rw [if_neg he]
        refine fail_inv ?_ _
        simp only [hlog]
        exact hl'
  case h_14 j hn =>
    rw [hn] at hp
    obtain ⟨hj, hk, hw, ⟨t, hfor, hcur, hborn⟩, hh⟩ := hp
    obtain ⟨fl1, hs1, hs⟩ := Option.map_eq_some_iff.1 hs
    cases hs
    rcases send_some hs1 with ⟨-, rfl⟩ | ⟨-, -, rfl⟩
    · exact fail_inv hl _
    · have hyes : Frame.isFile (frameOf j fl.log) = true := by simp [Frame.isFile, frameOf, hk]
      have htal : tally (fl.log.sent ++ [.endFile]) = ⟨(tally fl.log.sent).files ++ [(t, fl.log.part)], none⟩ := by
        simp [Tally.next, hcur]
      have hfin : List.Forall₂ Delivered (tally (fl.log.sent ++ [.endFile])).files
          ((fl.log.done ++ [frameOf j fl.log]).filter Frame.isFile) := by
        have hd : Delivered (t, fl.log.part) (frameOf j fl.log) := ⟨rfl, hfor.path, hfor.mtime, hfor.mode⟩
        rw [htal, List.filter_append, List.filter_cons_of_pos hyes, List.filter_nil]
        exact List.rel_append hl.files (.cons hd .nil)
      refine complete_inv fl.log.sent ?_ ?_ ?_ ?_ ?_ <;> simp only [push_log]
      · exact hl
      · exact hj.sent _
      · exact hw
      · exact ⟨by rw [htal], by rw [sunk_snoc, stage_endFile, hh], by rw [htal]; simpa using hborn⟩
      · exact hfin
  case h_15 => cases hs

/-- A file is created for `j`. -/
theorem born_inv {t : InFlight} (h : LogOk cfg fl.log) (hj : JobOk j fl.log) (hi : Idle cfg fl.log)
    (hk : j.entry.kind = .file) (hf : t.For j) : NetInv cfg ((fl.logBorn t).goto j (.sendBegin t)) := by
  refine goto_inv ?_ ⟨hj.framed, hj.path, hj.heard, hj.got⟩ ⟨hk, hf, hi.current, hi.hashed, ?_, hi.part, hi.trailer⟩
  · refine ⟨h.whole, h.files, h.heard, h.sane, ?_, ?_, h.got⟩
    · have hs := hi.toQuiet.born_sublist h
      simp only [logBorn, List.map_append, List.map_cons, List.map_nil, hj.heard, hf.path]
      refine List.Sublist.append ?_ (List.Sublist.refl _)
      rw [List.map_map]
      exact hs
    · intro u hu
      rcases List.mem_append.1 hu with hu | hu
      · exact h.name u hu
      · rw [List.mem_singleton] at hu; subst hu; exact ⟨j, hf⟩
  · simp only [logBorn, hi.born]

/-- What the net thread makes of a call's outcome keeps its invariant. -/
theorem netResume_inv {c : Choice} {sh : Shared} {fl : Flow} {r : Except Errno Nat} (h : NetInv cfg fl)
    (hlong : ∀ j tries, fl.net = .at j (.tempCreate tries) → r = .error .ENAMETOOLONG →
      NAME_MAX < j.name.length + 21) : NetInv cfg (fl.netResume cfg c r sh).2 := by
  have hl := h.log
  have hp := h.pc
  unfold netResume
  split
  case h_1 hn =>
    rw [hn] at hp
    split
    · exact ⟨hl, hp⟩
    · exact fail_inv hl _
  case h_2 j done component todo hn =>
    rw [hn] at hp
    split
    · exact goto_inv hl hp.1 hp.2
    · exact goto_inv hl hp.1 hp.2
    · exact fail_inv hl _
  case h_3 j done component todo hn =>
    rw [hn] at hp
    obtain ⟨hj, hi, hps⟩ := hp
    split
    · exact arrive_inv hl (hj.dir _) hi
    · exact goto_inv hl (hj.dir _) ⟨hi, by simpa using hps⟩
    · exact fail_inv hl _
  case h_4 j hn =>
    rw [hn] at hp
    split
    · exact goto_inv hl hp.1 hp.2
    · exact goto_inv hl hp.1 hp.2
    · exact fail_inv hl _
  case h_5 j hn =>
    rw [hn] at hp
    obtain ⟨hj, hi, hk⟩ := hp
    exact made_inv hl hj (whole_dir hj hi hk) hi.toQuiet (by simp [hk])
  case h_6 j target hn =>
    rw [hn] at hp
    exact goto_inv hl hp.1 hp.2
  case h_7 j target hn =>
    rw [hn] at hp
    obtain ⟨hj, hq, hk, -, -, hw⟩ := hp
    split
    · exact goto_inv hl hj ⟨hq, hk, hw⟩
    · exact fail_inv hl _
  case h_8 j hn =>
    rw [hn] at hp
    obtain ⟨hj, hq, hk, hw⟩ := hp
    exact made_inv hl hj hw hq (by simp [hk])
  case h_9 j hn =>
    rw [hn] at hp
    obtain ⟨hj, hq, hk, hw⟩ := hp
    split
    · exact complete_made hl hj hw hq hk
    · exact fail_inv hl _
  case h_10 j tries hn =>
    rw [hn] at hp
    obtain ⟨hj, hi, hk⟩ := hp
    split
    · exact born_inv hl hj hi hk ⟨rfl, rfl, rfl, rfl, rfl, .inl ⟨c.draw, rfl, rfl⟩⟩
    · exact goto_inv hl hj ⟨hi, hk⟩
    · exact goto_inv hl hj ⟨hi, hk, hlong j tries hn rfl⟩
    · exact fail_inv hl _
  case h_11 j again hn =>
    rw [hn] at hp
    obtain ⟨hj, hi, hk, hlen⟩ := hp
    split
    · exact born_inv hl hj hi hk ⟨rfl, rfl, rfl, rfl, rfl, .inr ⟨rfl, rfl, hlen⟩⟩
    · exact goto_inv hl hj ⟨hi, hk, hlen⟩
    · exact fail_inv hl _
  case h_12 j hn =>
    rw [hn] at hp
    split
    · exact goto_inv hl hp.1 hp.2
    · exact fail_inv hl _
  case h_13 j t hn => exact @fail_inv _ (fl.logUndone t) ⟨hl.whole, hl.files, hl.heard, hl.sane, hl.born, hl.name, hl.got⟩ _
  case h_14 => exact h

theorem length_scratchName (name : Name) (draw : UInt32) : (scratchName name draw).length = name.length + 21 := by
  simp [scratchName, hex8, PARTIAL]

theorem call_error {c : Choice} {sh : Shared} {sys : Sys} {e : Errno} (h : (call cfg c sh sys).2 = .error e)
    (h1 : e ≠ .EACCES) (h2 : e ≠ Errno.EIO) : sh.fs.exec cfg.umask c.now sys = .error e := by
  unfold call at h
  split at h
  · rename_i f hf
    cases f <;> cases h
    · exact absurd rfl h1
    · exact absurd rfl h2
  · split at h
    · cases h
    · cases h; assumption

theorem netStep_inv {c : Choice} {sh sh' : Shared} {fl fl' : Flow} (h : NetInv cfg fl)
    (hr : ∀ d, fl.reply = some d → d = cfg.blake3 fl.log.part)
    (hs : fl.netStep cfg c sh = some (sh', fl')) : NetInv cfg fl' := by
  unfold netStep at hs
  split at hs
  · rename_i sys hreq
    obtain ⟨-, rfl⟩ := Prod.mk.inj (Option.some.inj hs)
    refine netResume_inv h fun j tries hn he => ?_
    rw [hn] at hreq
    cases hreq
    have := Fs.exec_openExcl_tooLong (call_error he (by simp) (by simp))
    rwa [length_scratchName] at this
  · exact netLocal_inv h hr hs

end

end Flow

end Thunderflash.Recv
