/-
What a lane writes: item by item the header, as many payload bytes as it announced and their
digest, never more than a beginning of that, and the terminator only behind all of it.
-/
import Thunderflash.Send.Steps
import Thunderflash.Lts.Pipe

namespace Thunderflash.Send

open Codec Lts

variable {cfg : Cfg} {c : Choice} {ln ln' : Lane} {todo0 : List Item} {src : Item → Bytes → Prop} {item : Item}

/-! ## Frames -/

/-- How many payload bytes an entry announces. -/
def payloadLen (e : Entry) : Nat :=
  match e.kind with
  | .file | .symlink => e.size.toNat
  | .dir | .end_ => 0

/-- What follows a payload on the wire of this session. -/
def trailerOf (cfg : Cfg) (e : Entry) (payload : Bytes) : Bytes :=
  match e.kind with
  | .file | .symlink => if cfg.verify then (cfg.blake3 payload).bytes else []
  | .dir | .end_ => []

/-- An item and the payload that went out for it. -/
structure Sent where
  item : Item
  payload : Bytes
  deriving DecidableEq, Repr

def Sent.encode (cfg : Cfg) (fr : Sent) : Bytes :=
  fr.item.header ++ (fr.payload ++ trailerOf cfg fr.item.entry fr.payload)

def Sent.Whole (fr : Sent) : Prop := fr.payload.length = payloadLen fr.item.entry

def encodeAll (cfg : Cfg) (frs : List Sent) : Bytes := (frs.map (Sent.encode cfg)).flatten

@[simp] theorem encodeAll_nil : encodeAll cfg [] = [] := rfl

@[simp] theorem encodeAll_append (a b : List Sent) : encodeAll cfg (a ++ b) = encodeAll cfg a ++ encodeAll cfg b := by
  simp [encodeAll]

@[simp] theorem encodeAll_singleton (fr : Sent) : encodeAll cfg [fr] = fr.encode cfg := by simp [encodeAll]

/-- Frames for these items, in order, each with a payload of the announced length. -/
structure Framing (todo : List Item) (frs : List Sent) : Prop where
  items : frs.map Sent.item = todo
  whole : ∀ fr ∈ frs, fr.Whole

theorem Framing.append {a b : List Item} {x y : List Sent} (h : Framing a x) (h' : Framing b y) : Framing (a ++ b) (x ++ y) where
  items := by rw [List.map_append, h.items, h'.items]
  whole := fun fr hfr => (List.mem_append.1 hfr).elim (h.whole fr) (h'.whole fr)

/-- There are frames for any items. -/
theorem exists_framing (todo : List Item) : ∃ frs, Framing todo frs := by
  refine ⟨todo.map fun item => ⟨item, List.replicate (payloadLen item.entry) 0⟩, ?_, ?_⟩
  · rw [List.map_map]
    exact List.map_id _
  · intro fr hfr
    obtain ⟨item, -, rfl⟩ := List.mem_map.1 hfr
    exact List.length_replicate

/-- A payload broken off can be completed, and the items after it framed. -/
theorem exists_completion {done : List Sent} {todo : List Item} {p : Bytes} (hd : ∀ fr ∈ done, fr.Whole)
    (hp : p.length ≤ payloadLen item.entry) :
    ∃ frs, Framing (done.map Sent.item ++ item :: todo) frs ∧
      encodeAll cfg done ++ (item.header ++ p) <+: encodeAll cfg frs := by
  obtain ⟨rest, hrest⟩ := exists_framing todo
  let fr : Sent := ⟨item, p ++ List.replicate (payloadLen item.entry - p.length) 0⟩
  have hfr : Framing [item] [fr] := by
    refine ⟨rfl, fun x hx => ?_⟩
    rw [List.mem_singleton] at hx
    subst hx
    show (p ++ List.replicate (payloadLen item.entry - p.length) 0).length = payloadLen item.entry
    rw [List.length_append, List.length_replicate]
    omega
  refine ⟨done ++ ([fr] ++ rest), (Framing.mk rfl hd).append (hfr.append hrest), ?_⟩
  simp only [encodeAll_append, encodeAll_singleton]
  refine (List.prefix_append_right_inj _).2 ?_
  show item.header ++ p <+: item.header ++ (p ++ List.replicate _ 0 ++ trailerOf cfg item.entry _) ++ _
  simp only [List.append_assoc]
  exact (List.prefix_append_right_inj _).2 (List.prefix_append ..)

/-! ## Messages -/

/-- What the stage between the reader and the socket does with a message: hash the chunks and turn
the mark at their end into the digest when the session verifies, nothing otherwise. -/
def hashed (cfg : Cfg) (hasher : Bytes) (m : Except Err Msg) : Bytes × Option (Except Err Msg) :=
  if cfg.verify then
    match m with
    | .ok (.chunk bytes) => (hasher ++ bytes, some m)
    | .ok .endPayload => ([], some (.ok (.digest (cfg.blake3 hasher))))
    | _ => (hasher, some m)
  else (hasher, some m)

/-- The hasher after all of `sent`, and what of it comes to the socket loop. -/
def sunk (cfg : Cfg) (sent : List (Except Err Msg)) : Bytes × List (Except Err Msg) := through (hashed cfg) [] sent

theorem sunk_snoc (cfg : Cfg) (sent : List (Except Err Msg)) (m : Except Err Msg) : sunk cfg (sent ++ [m]) =
    ((hashed cfg (sunk cfg sent).1 m).1, (sunk cfg sent).2 ++ (hashed cfg (sunk cfg sent).1 m).2.toList) :=
  through_snoc ..

def bytesOf : Except Err Msg → Bytes
  | .ok m => m.bytes
  | .error _ => []

def allBytes (ms : List (Except Err Msg)) : Bytes := (ms.map bytesOf).flatten

@[simp] theorem allBytes_nil : allBytes [] = [] := rfl

@[simp] theorem allBytes_append (a b : List (Except Err Msg)) : allBytes (a ++ b) = allBytes a ++ allBytes b := by
  simp [allBytes]

@[simp] theorem allBytes_singleton (m : Except Err Msg) : allBytes [m] = bytesOf m := by simp [allBytes]

theorem allBytes_mono {a b : List (Except Err Msg)} (h : a <+: b) : allBytes a <+: allBytes b := by
  obtain ⟨t, rfl⟩ := h
  rw [allBytes_append]
  exact List.prefix_append ..

/-- A message the socket loop can write. -/
def Writable (m : Except Err Msg) : Prop := ∃ m', m = .ok m' ∧ m' ≠ .endPayload

/-- What of the reader's messages has come out of the hash stage: the bytes `b` and nothing the
socket loop cannot write, with `p` hashed since the last digest. -/
structure At (cfg : Cfg) (sent : List (Except Err Msg)) (p b : Bytes) : Prop where
  hasher : (sunk cfg sent).1 = if cfg.verify then p else []
  bytes : allBytes (sunk cfg sent).2 = b
  clean : ∀ m ∈ (sunk cfg sent).2, Writable m

section At

variable {sent : List (Except Err Msg)} {p b : Bytes}

theorem At.init (cfg : Cfg) : At cfg [] [] [] := ⟨by simp [sunk, through], rfl, by simp [sunk, through]⟩

/-- A message that the hash stage passes on as it is. -/
theorem At.snoc {m : Msg} (h : At cfg sent p b) (hc : ∀ bytes, m ≠ .chunk bytes) (he : m ≠ .endPayload) :
    At cfg (sent ++ [.ok m]) p (b ++ m.bytes) := by
  have hs : hashed cfg (sunk cfg sent).1 (.ok m) = ((sunk cfg sent).1, some (.ok m)) := by
    unfold hashed
    split
    · cases m <;> first | rfl | exact absurd rfl (hc _) | exact absurd rfl he
    · rfl
  refine ⟨?_, ?_, ?_⟩
  · rw [sunk_snoc, hs]
    exact h.hasher
  · rw [sunk_snoc, hs]
    simp [h.bytes, bytesOf]
  · rw [sunk_snoc, hs]
    intro x hx
    rcases List.mem_append.1 hx with hx | hx
    · exact h.clean x hx
    · have : x = .ok m := by simpa using hx
      exact ⟨m, this, he⟩

theorem At.chunk {bytes : Bytes} (h : At cfg sent p b) : At cfg (sent ++ [.ok (.chunk bytes)]) (p ++ bytes) (b ++ bytes) := by
  have hs : hashed cfg (sunk cfg sent).1 (.ok (.chunk bytes)) =
      (if cfg.verify then p ++ bytes else [], some (.ok (.chunk bytes))) := by
    unfold hashed
    rw [h.hasher]
    split <;> rfl
  refine ⟨?_, ?_, ?_⟩
  · rw [sunk_snoc, hs]
  · rw [sunk_snoc, hs]
    simp [h.bytes, bytesOf, Msg.bytes]
  · rw [sunk_snoc, hs]
    intro x hx
    rcases List.mem_append.1 hx with hx | hx
    · exact h.clean x hx
    · have : x = .ok (.chunk bytes) := by simpa using hx
      exact ⟨_, this, by simp⟩

/-- The mark at a payload's end comes out as the payload's digest. -/
theorem At.mark (hv : cfg.verify = true) (h : At cfg sent p b) :
    At cfg (sent ++ [.ok .endPayload]) [] (b ++ (cfg.blake3 p).bytes) := by
  have hs : hashed cfg (sunk cfg sent).1 (.ok .endPayload) = ([], some (.ok (.digest (cfg.blake3 p)))) := by
    unfold hashed
    rw [h.hasher, if_pos hv, if_pos hv]
  refine ⟨?_, ?_, ?_⟩
  · rw [sunk_snoc, hs]
    split <;> rfl
  · rw [sunk_snoc, hs]
    simp [h.bytes, bytesOf, Msg.bytes]
  · rw [sunk_snoc, hs]
    intro x hx
    rcases List.mem_append.1 hx with hx | hx
    · exact h.clean x hx
    · have : x = .ok (.digest (cfg.blake3 p)) := by simpa using hx
      exact ⟨_, this, by simp⟩

end At

/-! ## The reader -/

/-- What holds at each stage of `item`, when the frames before it made `pre`. -/
def StageOk (cfg : Cfg) (src : Item → Bytes → Prop) (pre : Bytes) (item : Item) (sent : List (Except Err Msg)) : Stage → Prop
  | .header => At cfg sent [] pre
  | .readLink => item.entry.kind = .symlink ∧ At cfg sent [] (pre ++ item.header)
  | .sendTarget t => item.entry.kind = .symlink ∧ t.length = item.entry.size.toNat ∧ src item t ∧
      At cfg sent [] (pre ++ item.header)
  | .sendDigest d => cfg.verify = true ∧ item.entry.kind = .symlink ∧
      ∃ t, t.length = item.entry.size.toNat ∧ src item t ∧ d = cfg.blake3 t ∧ At cfg sent [] (pre ++ (item.header ++ t))
  | .openFile => item.entry.kind = .file ∧ At cfg sent [] (pre ++ item.header)
  | .takeBuf n => item.entry.kind = .file ∧
      ∃ p, p.length = n ∧ n ≤ item.entry.size.toNat ∧ src item p ∧ At cfg sent p (pre ++ (item.header ++ p))
  | .fill n filled => item.entry.kind = .file ∧
      ∃ p, p.length = n ∧ n ≤ item.entry.size.toNat ∧ src item (p ++ filled) ∧ At cfg sent p (pre ++ (item.header ++ p))
  | .sendChunk n bytes => item.entry.kind = .file ∧
      ∃ p, p.length + bytes.length = n ∧ n ≤ item.entry.size.toNat ∧ src item (p ++ bytes) ∧
        At cfg sent p (pre ++ (item.header ++ p))
  | .sendEnd => cfg.verify = true ∧ item.entry.kind = .file ∧
      ∃ p, p.length = item.entry.size.toNat ∧ src item p ∧ At cfg sent p (pre ++ (item.header ++ p))

/-- Frames completed, with payloads the source gave. -/
def Read (src : Item → Bytes → Prop) (done : List Sent) : Prop := ∀ fr ∈ done, fr.Whole ∧ src fr.item fr.payload

/-- A beginning of the framing has come out. -/
def Begun (cfg : Cfg) (todo0 : List Item) (out : List (Except Err Msg)) : Prop :=
  ∃ frs, Framing todo0 frs ∧ allBytes out <+: encodeAll cfg frs

def PcOk (cfg : Cfg) (src : Item → Bytes → Prop) (todo0 : List Item) (sent : List (Except Err Msg)) : ReaderPc → Prop
  | .at item st todo => ∃ done, Read src done ∧ todo0 = done.map Sent.item ++ item :: todo ∧
      StageOk cfg src (encodeAll cfg done) item sent st
  | .sendErr _ => Begun cfg todo0 (sunk cfg sent).2 ∧ ∀ m ∈ (sunk cfg sent).2, Writable m
  | .left => (∃ frs, Read src frs ∧ todo0 = frs.map Sent.item ∧ At cfg sent [] (encodeAll cfg frs)) ∨
      (Begun cfg todo0 (sunk cfg sent).2 ∧ ∃ l e, (sunk cfg sent).2 = l ++ [.error e] ∧ ∀ m ∈ l, Writable m)

theorem Read.framing {frs : List Sent} (h : Read src frs) : Framing (frs.map Sent.item) frs := ⟨rfl, fun fr hfr => (h fr hfr).1⟩

/-- Whatever the reader has come to, what it sent makes a beginning of the framing, and the socket
loop can write all of it but an error at the end. -/
theorem PcOk.begun {sent : List (Except Err Msg)} {r : ReaderPc} (h : PcOk cfg src todo0 sent r) : Begun cfg todo0 (sunk cfg sent).2 := by
  cases r with
  | sendErr e => exact h.1
  | left =>
    rcases h with ⟨frs, hr, rfl, ha⟩ | h
    · exact ⟨frs, hr.framing, by rw [ha.bytes]⟩
    · exact h.1
  | «at» item st todo =>
    obtain ⟨done, hr, rfl, hst⟩ := h
    have hw : ∀ fr ∈ done, fr.Whole := fun fr hfr => (hr fr hfr).1
    have hof : ∀ {h p : Bytes}, p.length ≤ payloadLen item.entry → At cfg sent h (encodeAll cfg done ++ (item.header ++ p)) →
        Begun cfg (done.map Sent.item ++ item :: todo) (sunk cfg sent).2 := by
      intro h p hp ha
      obtain ⟨frs, hf, hpre⟩ := @exists_completion cfg item done todo _ hw hp
      exact ⟨frs, hf, by rw [ha.bytes]; exact hpre⟩
    have hfile : item.entry.kind = .file → payloadLen item.entry = item.entry.size.toNat := fun hk => by simp [payloadLen, hk]
    have hlink : item.entry.kind = .symlink → payloadLen item.entry = item.entry.size.toNat := fun hk => by simp [payloadLen, hk]
    have hnil : ∀ {h}, At cfg sent h (encodeAll cfg done ++ item.header) → Begun cfg (done.map Sent.item ++ item :: todo) (sunk cfg sent).2 :=
      fun ha => hof (p := []) (Nat.zero_le _) (by rw [List.append_nil]; exact ha)
    cases st with
    | header =>
      obtain ⟨frs, hf, hpre⟩ := @exists_completion cfg item done todo [] hw (Nat.zero_le _)
      exact ⟨frs, hf, by rw [hst.bytes]; exact (List.prefix_append ..).trans hpre⟩
    | readLink => exact hnil hst.2
    | sendTarget t => exact hnil hst.2.2.2
    | sendDigest d =>
      obtain ⟨-, hk, t, hl, -, -, ha⟩ := hst
      exact hof (by rw [hlink hk]; omega) ha
    | openFile => exact hnil hst.2
    | takeBuf n =>
      obtain ⟨hk, p, hl, hn, -, ha⟩ := hst
      exact hof (by rw [hfile hk]; omega) ha
    | fill n filled =>
      obtain ⟨hk, p, hl, hn, -, ha⟩ := hst
      exact hof (by rw [hfile hk]; omega) ha
    | sendChunk n bytes =>
      obtain ⟨hk, p, hl, hn, -, ha⟩ := hst
      exact hof (by rw [hfile hk]; omega) ha
    | sendEnd =>
      obtain ⟨-, hk, p, hl, -, ha⟩ := hst
      exact hof (by rw [hfile hk]; omega) ha

/-- Nothing the socket loop cannot write has come out while an item is being read. -/
theorem StageOk.clean {pre : Bytes} {sent : List (Except Err Msg)} {st : Stage} (h : StageOk cfg src pre item sent st) :
    ∀ m ∈ (sunk cfg sent).2, Writable m := by
  cases st with
  | header => exact At.clean h
  | readLink => exact h.2.clean
  | sendTarget t => exact h.2.2.2.clean
  | sendDigest d => obtain ⟨-, -, t, -, -, -, ha⟩ := h; exact ha.clean
  | openFile => exact h.2.clean
  | takeBuf n => obtain ⟨-, p, -, -, -, ha⟩ := h; exact ha.clean
  | fill n filled => obtain ⟨-, p, -, -, -, ha⟩ := h; exact ha.clean
  | sendChunk n bytes => obtain ⟨-, p, -, -, -, ha⟩ := h; exact ha.clean
  | sendEnd => obtain ⟨-, -, p, -, -, ha⟩ := h; exact ha.clean

section Reader

variable {done : List Sent} {todo : List Item} {sent : List (Except Err Msg)} {ok : Lane → Act → Lane → Prop}

theorem PcOk.items (hr : Read src done) (hd : todo0 = done.map Sent.item ++ todo) (ha : At cfg sent [] (encodeAll cfg done)) :
    PcOk cfg src todo0 sent (ln.items todo).reader := by
  unfold Lane.items
  split
  · exact .inl ⟨done, hr, by rw [hd, List.append_nil], ha⟩
  · exact ⟨done, hr, hd, ha⟩

/-- The item is complete, and its payload one that the source gave. -/
theorem PcOk.finish {p : Bytes} (hr : Read src done) (hd : todo0 = done.map Sent.item ++ item :: todo)
    (hp : p.length = payloadLen item.entry) (hs : src item p)
    (ha : At cfg sent [] (encodeAll cfg done ++ (item.header ++ (p ++ trailerOf cfg item.entry p)))) :
    PcOk cfg src todo0 sent (ln.finish todo).reader := by
  have hnext : Read src (done ++ [⟨item, p⟩]) := by
    intro fr hfr
    rcases List.mem_append.1 hfr with hfr | hfr
    · exact hr fr hfr
    · obtain rfl := List.mem_singleton.1 hfr
      exact ⟨hp, hs⟩
  refine PcOk.items hnext ?_ ?_
  · simp [hd]
  · rw [encodeAll_append, encodeAll_singleton]
    exact ha

/-- The reader comes to an error. -/
theorem PcOk.fail {st : Stage} (h : PcOk cfg src todo0 sent (.at item st todo)) (e : Err) :
    PcOk cfg src todo0 sent (ln.fail e).reader := by
  refine ⟨h.begun, ?_⟩
  obtain ⟨done, -, -, hst⟩ := h
  exact hst.clean

/-- The source's answers on these steps meet `src`: it holds of the empty beginning, is kept as a
file is read on, and holds of a link's target. -/
structure Source (ok : Lane → Act → Lane → Prop) (src : Item → Bytes → Prop) : Prop where
  start : ∀ item, src item []
  link : ∀ {ln c ln' item todo}, ok ln (.read c) ln' → ln.reader = .at item .readLink todo → c.fault = none →
    src item (lossy c.data)
  more : ∀ {ln c ln' item todo p filled}, ok ln (.read c) ln' → ln.reader = .at item (.fill p.length filled) todo →
    c.fault = none → src item (p ++ filled) → src item (p ++ (filled ++ c.data))

/-- Any answers. -/
theorem Source.any : Source Any fun _ _ => True := ⟨fun _ => trivial, fun _ _ _ => trivial, fun _ _ _ _ => trivial⟩

/-- The head of `stream_file`'s loop: another chunk, or the payload is complete. -/
theorem PcOk.stream {p : Bytes} (hr : Read src done) (hd : todo0 = done.map Sent.item ++ item :: todo)
    (hk : item.entry.kind = .file) (hp : p.length ≤ item.entry.size.toNat) (hs : src item p)
    (ha : At cfg sent p (encodeAll cfg done ++ (item.header ++ p))) :
    PcOk cfg src todo0 sent (ln.stream cfg item todo p.length).reader := by
  unfold Lane.stream
  split
  · exact ⟨done, hr, hd, hk, p, rfl, hp, hs, ha⟩
  · have hlen : p.length = item.entry.size.toNat := by omega
    split
    · rename_i hv
      exact ⟨done, hr, hd, hv, hk, p, hlen, hs, ha⟩
    · rename_i hv
      refine PcOk.finish hr hd (by simp [payloadLen, hk, hlen]) hs ⟨?_, ?_, ha.clean⟩
      · rw [ha.hasher, if_neg hv, if_neg hv]
      · rw [ha.bytes]
        simp [trailerOf, hk, hv]

/-- The reader keeps `PcOk`, as long as nobody it sends to has dropped its receiver. -/
theorem PcOk.readStep (hsrc : Source ok src) (h : PcOk cfg src todo0 ln.log.sent ln.reader) (hgone : ¬ ln.sinkGone cfg)
    (hret : ¬ ln.returned) (hs : ln.readStep cfg c = some ln') (ho : ok ln (.read c) ln') :
    PcOk cfg src todo0 ln'.log.sent ln'.reader := by
  have hpush : ∀ {m next gone}, ln.send cfg m next gone = some ln' → ln' = next (ln.push cfg m) := fun hs =>
    (Lane.send_some hs).elim (fun hx => absurd hx.1 hgone) fun hx => hx.2.2
  have hlog : ∀ m, (ln.push cfg m).log.sent = ln.log.sent ++ [m] := by
    intro m
    unfold Lane.push
    split <;> rfl
  have hfin : ∀ (todo : List Item) (ln : Lane), (ln.finish todo).log = ln.log := by
    intro todo ln
    obtain ⟨r, hr⟩ := Lane.finish_eq todo ln
    rw [hr]
  have hstr : ∀ (item : Item) (todo : List Item) (n : Nat) (ln : Lane), (ln.stream cfg item todo n).log = ln.log := by
    intro item todo n ln
    obtain ⟨r, f, hr⟩ := @Lane.stream_eq cfg item todo n ln
    rw [hr]
  unfold Lane.readStep at hs
  split at hs
  case h_1 item todo hpc =>
    rw [hpc] at h
    obtain ⟨done, hr, hd, ha⟩ := h
    rw [hpush hs]
    have ha' := At.snoc (m := .header item.header) ha (by simp) (by simp)
    unfold Lane.body
    split
    · rw [hfin, hlog]
      rename_i hk
      exact PcOk.finish hr hd (by simp [payloadLen, hk]) (hsrc.start item) (by simpa [trailerOf, hk, Msg.bytes] using ha')
    · rw [hfin, hlog]
      rename_i hk
      exact PcOk.finish hr hd (by simp [payloadLen, hk]) (hsrc.start item) (by simpa [trailerOf, hk, Msg.bytes] using ha')
    · rename_i hk
      show PcOk cfg src todo0 (ln.push cfg _).log.sent _
      rw [hlog]
      exact ⟨done, hr, hd, hk, ha'⟩
    · rename_i hk
      show PcOk cfg src todo0 (ln.push cfg _).log.sent _
      rw [hlog]
      exact ⟨done, hr, hd, hk, ha'⟩
  case h_2 item todo hpc =>
    rw [hpc] at h
    split at hs <;> cases hs
    · exact h.fail _
    · rename_i hf
      split
      · rename_i hlen
        obtain ⟨done, hr, hd, hk, ha⟩ := h
        exact ⟨done, hr, hd, hk, hlen, hsrc.link ho hpc hf, ha⟩
      · exact h.fail _
  case h_3 item target todo hpc =>
    rw [hpc] at h
    obtain ⟨done, hr, hd, hk, hlen, hs', ha⟩ := h
    rw [hpush hs]
    have ha' := At.snoc (m := .target target) ha (by simp) (by simp)
    split
    · rename_i hv
      show PcOk cfg src todo0 (ln.push cfg _).log.sent _
      rw [hlog]
      exact ⟨done, hr, hd, hv, hk, target, hlen, hs', rfl, by simpa [Msg.bytes] using ha'⟩
    · rename_i hv
      rw [hfin, hlog]
      exact PcOk.finish hr hd (by simp [payloadLen, hk, hlen]) hs' (by simpa [trailerOf, hk, hv, Msg.bytes] using ha')
  case h_4 item d todo hpc =>
    rw [hpc] at h
    obtain ⟨done, hr, hd, hv, hk, t, hlen, hs', rfl, ha⟩ := h
    rw [hpush hs, hfin, hlog]
    have ha' := At.snoc (m := .digest (cfg.blake3 t)) ha (by simp) (by simp)
    exact PcOk.finish hr hd (by simp [payloadLen, hk, hlen]) hs' (by simpa [trailerOf, hk, hv, Msg.bytes] using ha')
  case h_5 item todo hpc =>
    rw [hpc] at h
    split at hs <;> cases hs
    · exact h.fail _
    · obtain ⟨done, hr, hd, hk, ha⟩ := h
      rw [hstr]
      exact PcOk.stream (p := []) hr hd hk (Nat.zero_le _) (hsrc.start item) (by rw [List.append_nil]; exact ha)
  case h_6 item n todo hpc =>
    rw [hpc] at h
    split at hs
    · cases hs
      obtain ⟨done, hr, hd, hk, p, hp, hn, hs', ha⟩ := h
      exact ⟨done, hr, hd, hk, p, hp, hn, by rw [List.append_nil]; exact hs', ha⟩
    · cases hs
  case h_7 item n filled todo hpc =>
    rw [hpc] at h
    split at hs
    · cases hs; exact h.fail _
    · rename_i hf
      split at hs
      · cases hs; exact h.fail _
      · obtain ⟨done, hr, hd, hk, p, rfl, hn, hs', ha⟩ := h
        have hmore := hsrc.more ho hpc hf hs'
        split at hs
        · cases hs
          exact ⟨done, hr, hd, hk, p, rfl, hn, hmore, ha⟩
        · split at hs <;> cases hs
          rename_i hw
          refine ⟨done, hr, hd, hk, p, by rw [hw], ?_, hmore, ha⟩
          unfold Lane.want
          omega
  case h_8 item n bytes todo hpc =>
    rw [hpc] at h
    obtain ⟨done, hr, hd, hk, p, rfl, hn, hs', ha⟩ := h
    rw [hpush hs, hstr, hlog, ← List.length_append]
    have hchunk : At cfg (ln.log.sent ++ [.ok (.chunk bytes)]) (p ++ bytes) _ := At.chunk ha
    exact PcOk.stream hr hd hk (by rw [List.length_append]; exact hn) hs' (by simpa using hchunk)
  case h_9 item todo hpc =>
    rw [hpc] at h
    obtain ⟨done, hr, hd, hv, hk, p, hlen, hs', ha⟩ := h
    rw [hpush hs, hfin, hlog]
    exact PcOk.finish hr hd (by simp [payloadLen, hk, hlen]) hs' (by simpa [trailerOf, hk, hv] using ha.mark hv)
  case h_10 e hpc =>
    rw [hpc] at h
    rw [hpush hs]
    show PcOk cfg src todo0 (ln.push cfg _).log.sent .left
    rw [hlog]
    have hout : (sunk cfg (ln.log.sent ++ [.error e])).2 = (sunk cfg ln.log.sent).2 ++ [.error e] := by
      rw [sunk_snoc]
      unfold hashed
      split <;> rfl
    refine .inr ⟨?_, _, e, hout, h.2⟩
    obtain ⟨frs, hf, hpre⟩ := h.1
    refine ⟨frs, hf, ?_⟩
    rw [hout]
    simpa [bytesOf] using hpre
  case h_11 => cases hs

end Reader

end Thunderflash.Send
