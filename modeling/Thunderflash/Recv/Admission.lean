/-
Who is let in: `accept_one` from the first connection to the start of the data pipelines. Every
connection is taken as the bytes it carries until it ends; the pipelines start on what is left of
the connections behind their handshakes, the primary's behind its manifest.
-/
import Thunderflash.Wire.Handshake
import Thunderflash.Wire.Stream

namespace Thunderflash.Recv

open Codec

/-- Why a connection is refused. -/
inductive Refusal
  | unexpectedEof
  | handshake (e : HandshakeError)
  | tokenMismatch
  /-- Another connection arrived before the primary. -/
  | primaryIndex (index : UInt32)
  | streamCount (count : UInt32)
  | manifest (e : DecodeError)
  | bandVersion (version : UInt8)
  | noStreamTail
  | bandCount (band primary : UInt32)
  | bandIndex (index count : UInt32)
  | verifyDiffers
  deriving DecidableEq, Repr

def ofEof {ε : Type} (f : ε → Refusal) : Option ε → Refusal
  | none => .unexpectedEof
  | some e => f e

/-- What the primary's handshake settles: whether the stream carries digests, and in a v4 session
the count and the index. -/
def verifyHandshake (token : Token) (bs : Bytes) : Except Refusal ((Bool × Option (UInt32 × UInt32)) × Bytes) :=
  match (readHandshake bs).atEof with
  | .error e => .error (ofEof .handshake e)
  | .ok (hs, rest) =>
    if ctEq hs.token token.bytes = false then .error .tokenMismatch
    else
      match hs.streams with
      | none => .ok ((hs.verify, none), rest)
      | some (count, index) =>
        -- the primary carries the manifest, so it must come first
        if index ≠ 0 then .error (.primaryIndex index)
        else if ¬ (2 ≤ count ∧ count ≤ MAX_STREAMS) then .error (.streamCount count)
        else .ok ((hs.verify, some (count, index)), rest)

/-- One further connection of a v4 session. -/
def acceptBand (token : Token) (count : UInt32) (verify : Bool) (bs : Bytes) : Except Refusal (UInt32 × Bytes) :=
  match (readHandshake bs).atEof with
  | .error e => .error (ofEof .handshake e)
  | .ok (hs, rest) =>
    if ctEq hs.token token.bytes = false then .error .tokenMismatch
    else if hs.version ≠ VERSION_MULTI then .error (.bandVersion hs.version)
    else
      match hs.streams with
      | none => .error .noStreamTail
      | some (bandCount, index) =>
        if bandCount ≠ count then .error (.bandCount bandCount count)
        else if index = 0 ∨ count ≤ index then .error (.bandIndex index count)
        else if hs.verify ≠ verify then .error .verifyDiffers
        else .ok (index, rest)

/-- Where `accept_one` has come to with the connections that there are. -/
inductive Admission
  /-- No connection is left to accept. -/
  | waiting
  | refused (e : Refusal)
  /-- The pipelines run, one on each stream with its index. -/
  | started (verify : Bool) (streams : List (UInt32 × Bytes))
  deriving DecidableEq, Repr

/-- The loop that accepts the band, the connections accepted so far in `bands`. -/
def acceptBands (token : Token) (count : UInt32) (verify : Bool) :
    Nat → List (UInt32 × Bytes) → List Bytes → Admission
  | 0, bands, _ => .started verify bands
  | _ + 1, _, [] => .waiting
  | left + 1, bands, bs :: conns =>
    match acceptBand token count verify bs with
    | .error e => .refused e
    | .ok band => acceptBands token count verify left (bands ++ [band]) conns

def acceptOne (token : Token) : List Bytes → Admission
  | [] => .waiting
  | bs :: conns =>
    match verifyHandshake token bs with
    | .error e => .refused e
    | .ok ((verify, streams), rest) =>
      match (Entry.decodeAll rest).atEof with
      | .error e => .refused (ofEof .manifest e)
      | .ok (_, data) =>
        match streams with
        | none => .started verify [(0, data)]
        | some (count, _) => acceptBands token count verify (count.toNat - 1) [(0, data)] conns

/-! ## One connection -/

variable {token : Token} {bs rest data : Bytes} {conns : List Bytes} {count index : UInt32} {verify : Bool}

/-- A connection that carries a handshake with the token. -/
structure Presents (token : Token) (bs : Bytes) (hs : Handshake) (rest : Bytes) : Prop where
  read : readHandshake bs = .ok hs rest
  token : hs.token = token.bytes

/-- A flow of a v4 session. -/
structure FlowOf (token : Token) (count : UInt32) (verify : Bool) (bs : Bytes) (index : UInt32) (rest : Bytes) : Prop where
  presents : ∃ hs, Presents token bs hs rest ∧ hs.version = VERSION_MULTI ∧ hs.streams = some (count, index) ∧ hs.verify = verify

theorem atEof_ok {ε α : Type} {r : Read ε α} {a : α} {rest : Bytes} : r.atEof = .ok (a, rest) ↔ r = .ok a rest := by
  cases r <;> simp [Read.atEof]

theorem acceptBand_iff : acceptBand token count verify bs = .ok (index, rest) ↔
    FlowOf token count verify bs index rest ∧ index ≠ 0 ∧ index < count := by
  unfold acceptBand
  constructor
  · intro h
    split at h
    · cases h
    · rename_i hs rest' hr
      split at h
      · cases h
      · rename_i ht
        split at h
        · cases h
        · rename_i hv
          split at h
          · cases h
          · rename_i c i hst
            split at h
            · cases h
            · rename_i hc
              split at h
              · cases h
              · rename_i hi
                split at h <;> cases h
                rename_i hver
                push Not at hc hi hv hver
                refine ⟨⟨hs, ⟨atEof_ok.1 hr, ctEq_iff.1 (by simpa using ht)⟩, hv, by rw [hst, hc], hver⟩, hi.1, UInt32.not_le.1 hi.2⟩
  · rintro ⟨⟨hs, ⟨hr, ht⟩, hv, hst, hver⟩, h0, hlt⟩
    rw [hr]
    show (if ctEq hs.token token.bytes = false then _ else _) = _
    rw [if_neg (by rw [ctEq_iff.2 ht]; simp), if_neg (by simp [hv]), hst]
    show (if count ≠ count then _ else _) = _
    rw [if_neg (by simp), if_neg (by push Not; exact ⟨h0, UInt32.not_le.2 hlt⟩), if_neg (by simp [hver])]

theorem verifyHandshake_single : verifyHandshake token bs = .ok ((verify, none), rest) ↔
    ∃ hs, Presents token bs hs rest ∧ hs.version = VERSION ∧ hs.verify = verify := by
  unfold verifyHandshake
  constructor
  · intro h
    split at h
    · cases h
    · rename_i hs rest' hr
      split at h
      · cases h
      · rename_i ht
        split at h
        · rename_i hst
          cases h
          refine ⟨hs, ⟨atEof_ok.1 hr, ctEq_iff.1 (by simpa using ht)⟩, ?_, rfl⟩
          rcases readHandshake_ok (atEof_ok.1 hr) with ⟨hv, -⟩ | ⟨-, c, i, hx⟩
          · exact hv
          · rw [hx] at hst; cases hst
        · split at h
          · cases h
          · split at h <;> cases h
  · rintro ⟨hs, ⟨hr, ht⟩, hv, hver⟩
    have hst : hs.streams = none := by
      rcases readHandshake_ok hr with ⟨-, hst⟩ | ⟨hx, -⟩
      · exact hst
      · rw [hx] at hv; cases hv
    rw [hr]
    show (if ctEq hs.token token.bytes = false then _ else _) = _
    rw [if_neg (by rw [ctEq_iff.2 ht]; simp), hst, hver]

theorem verifyHandshake_multi : verifyHandshake token bs = .ok ((verify, some (count, index)), rest) ↔
    FlowOf token count verify bs 0 rest ∧ index = 0 ∧ 2 ≤ count ∧ count ≤ MAX_STREAMS := by
  unfold verifyHandshake
  constructor
  · intro h
    split at h
    · cases h
    · rename_i hs rest' hr
      split at h
      · cases h
      · rename_i ht
        split at h
        · cases h
        · rename_i c i hst
          split at h
          · cases h
          · rename_i hi
            push Not at hi
            subst hi
            split at h <;> cases h
            rename_i hc
            push Not at hc
            refine ⟨⟨hs, ⟨atEof_ok.1 hr, ctEq_iff.1 (by simpa using ht)⟩, ?_, hst, rfl⟩, rfl, by tauto⟩
            rcases readHandshake_ok (atEof_ok.1 hr) with ⟨-, hx⟩ | ⟨hv, -⟩
            · rw [hx] at hst; cases hst
            · exact hv
  · rintro ⟨⟨hs, ⟨hr, ht⟩, hv, hst, hver⟩, rfl, hc⟩
    rw [hr]
    show (if ctEq hs.token token.bytes = false then _ else _) = _
    rw [if_neg (by rw [ctEq_iff.2 ht]; simp), hst]
    show (if (0 : UInt32) ≠ 0 then _ else _) = _
    rw [if_neg (by simp), if_neg (by tauto), hver]

/-! ## The sequence of connections -/

/-- The first connection carries a v3 handshake with the token. -/
def SingleFlow (token : Token) (conns : List Bytes) (verify : Bool) : Prop :=
  ∃ bs later hs rest, conns = bs :: later ∧ Presents token bs hs rest ∧ hs.version = VERSION ∧ hs.verify = verify

/-- What every connection says by itself: a primary that announces `count` flows, and as many further
connections, each a flow of the same session with an index inside it; `band` has the indices. -/
structure Announced (token : Token) (conns : List Bytes) (count : UInt32) (verify : Bool) (primary : Bytes)
    (band : List (UInt32 × Bytes)) : Prop where
  range : 2 ≤ count ∧ count ≤ MAX_STREAMS
  flows : ∃ first others later, conns = first :: (others ++ later) ∧ FlowOf token count verify first 0 primary ∧
    List.Forall₂ (fun bs x => FlowOf token count verify bs x.1 x.2) others band
  length : band.length + 1 = count.toNat
  inside : ∀ x ∈ band, x.1 ≠ 0 ∧ x.1 < count

/-- The connections are the flows of one session, every index once. -/
structure OneSession (token : Token) (conns : List Bytes) (verify : Bool) (band : List (UInt32 × Bytes)) : Prop where
  announced : ∃ count primary, Announced token conns count verify primary band ∧
    ∀ k, k ≠ 0 → k < count → (band.map Prod.fst).count k = 1

/-- Two further connections of an otherwise well-formed session announce the same index. -/
def Repeated (token : Token) (conns : List Bytes) : Prop :=
  ∃ count verify primary band, Announced token conns count verify primary band ∧ ¬ (band.map Prod.fst).Nodup ∧
    ∃ es data, Entry.decodeAll primary = .ok es data

/-- There are fewer connections than the session needs. -/
def Short (token : Token) (conns : List Bytes) : Prop :=
  conns = [] ∨ ∃ bs later count verify rest, conns = bs :: later ∧ FlowOf token count verify bs 0 rest ∧
    conns.length < count.toNat

/-- The pipelines start only on one v3 connection or on exactly the flows of one v4 session; every
other sequence is refused, or is not complete yet. -/
def AdmitsSessions (token : Token) (conns : List Bytes) : Prop :=
  (∀ verify streams, acceptOne token conns = .started verify streams → SingleFlow token conns verify ∨
    ∃ data band, streams = (0, data) :: band ∧ OneSession token conns verify band) ∧
  (acceptOne token conns = .waiting → Short token conns)

variable {streams band band' : List (UInt32 × Bytes)}

theorem acceptBands_started {v : Bool} : ∀ {left : Nat} {bands : List (UInt32 × Bytes)} {conns : List Bytes},
    acceptBands token count verify left bands conns = .started v streams ↔
      v = verify ∧ ∃ band others later, conns = others ++ later ∧ streams = bands ++ band ∧ band.length = left ∧
        List.Forall₂ (fun bs x => FlowOf token count verify bs x.1 x.2) others band ∧ ∀ x ∈ band, x.1 ≠ 0 ∧ x.1 < count
  | 0, bands, conns => by
    show Admission.started verify bands = .started v streams ↔ _
    constructor
    · intro h
      cases h
      exact ⟨rfl, [], [], conns, rfl, (List.append_nil _).symm, rfl, .nil, fun _ hx => by cases hx⟩
    · rintro ⟨rfl, band, others, later, -, rfl, hl, -, -⟩
      obtain rfl := List.length_eq_zero_iff.1 hl
      rw [List.append_nil]
  | left + 1, bands, [] => by
    show Admission.waiting = .started v streams ↔ _
    constructor
    · intro h; cases h
    · rintro ⟨-, band, others, later, hc, -, hl, hf, -⟩
      obtain ⟨rfl, rfl⟩ := List.append_eq_nil_iff.1 hc.symm
      cases hf
      cases hl
  | left + 1, bands, bs :: conns => by
    constructor
    · intro h
      unfold acceptBands at h
      split at h
      · cases h
      · rename_i x hb
        obtain ⟨hflow, hin⟩ := acceptBand_iff.1 hb
        obtain ⟨hv, band, others, later, rfl, rfl, rfl, hf, hall⟩ := acceptBands_started.1 h
        refine ⟨hv, x :: band, bs :: others, later, rfl, by simp, rfl, .cons hflow hf, fun y hy => ?_⟩
        rcases List.mem_cons.1 hy with rfl | hy
        · exact hin
        · exact hall y hy
    · rintro ⟨hv, band, others, later, hc, hst, hl, hf, hall⟩
      cases hf with
      | nil => cases hl
      | @cons b x others band hx hf =>
        obtain ⟨rfl, rfl⟩ := List.cons.inj hc
        have hb : acceptBand token count verify bs = .ok (x.1, x.2) := acceptBand_iff.2 ⟨hx, hall x (by simp)⟩
        unfold acceptBands
        rw [hb]
        exact acceptBands_started.2 ⟨hv, band, others, later, rfl, by simp [hst], by simpa using hl, hf, fun y hy => hall y (by simp [hy])⟩

theorem acceptBands_waiting : ∀ {left : Nat} {bands : List (UInt32 × Bytes)} {conns : List Bytes},
    acceptBands token count verify left bands conns = .waiting → conns.length < left
  | 0, _, _, h => by cases h
  | left + 1, _, [], _ => Nat.succ_pos _
  | left + 1, bands, bs :: conns, h => by
    unfold acceptBands at h
    split at h
    · cases h
    · have := acceptBands_waiting h
      rw [List.length_cons]
      omega

theorem FlowOf.unique {count' : UInt32} {verify' : Bool} {i j : UInt32} {r r' : Bytes} (h : FlowOf token count verify bs i r)
    (h' : FlowOf token count' verify' bs j r') : count = count' ∧ verify = verify' ∧ i = j ∧ r = r' := by
  obtain ⟨hs, ⟨hr, -⟩, -, hst, hv⟩ := h
  obtain ⟨hs', ⟨hr', -⟩, -, hst', hv'⟩ := h'
  rw [hr] at hr'
  cases hr'
  rw [hst] at hst'
  cases hst'
  exact ⟨rfl, hv.symm.trans hv', rfl, rfl⟩

theorem flows_unique : ∀ {others : List Bytes} {band band' : List (UInt32 × Bytes)},
    List.Forall₂ (fun bs x => FlowOf token count verify bs x.1 x.2) others band →
    List.Forall₂ (fun bs x => FlowOf token count verify bs x.1 x.2) others band' → band = band'
  | _, _, _, .nil, .nil => rfl
  | _, _, _, .cons h hs, .cons h' hs' => by
    obtain ⟨-, -, h1, h2⟩ := h.unique h'
    rw [Prod.ext h1 h2, flows_unique hs hs']

/-- The connections determine the session. -/
theorem Announced.unique {count' : UInt32} {verify' : Bool} {p p' : Bytes} (h : Announced token conns count verify p band)
    (h' : Announced token conns count' verify' p' band') : count = count' ∧ verify = verify' ∧ p = p' ∧ band = band' := by
  obtain ⟨first, others, later, rfl, hf, hb⟩ := h.flows
  obtain ⟨first', others', later', hc, hf', hb'⟩ := h'.flows
  obtain ⟨hfirst, hrest⟩ := List.cons.inj hc
  subst hfirst
  obtain ⟨rfl, rfl, -, rfl⟩ := hf.unique hf'
  have hl : others.length = others'.length := by
    have h1 := h.length
    have h2 := h'.length
    rw [hb.length_eq, hb'.length_eq]
    omega
  obtain ⟨rfl, -⟩ := List.append_inj hrest hl
  exact ⟨rfl, rfl, rfl, flows_unique hb hb'⟩

/-- When a v4 session starts. -/
theorem acceptOne_multi (h : Announced token conns count verify rest band) {es : List Entry} (hd : Entry.decodeAll rest = .ok es data) :
    acceptOne token conns = .started verify ((0, data) :: band) := by
  obtain ⟨first, others, later, rfl, hf, hb⟩ := h.flows
  have hv : verifyHandshake token first = .ok ((verify, some (count, 0)), rest) := verifyHandshake_multi.2 ⟨hf, rfl, h.range⟩
  have hman : (Entry.decodeAll rest).atEof = .ok (es, data) := by rw [hd]; rfl
  unfold acceptOne
  dsimp only
  rw [hv]
  dsimp only
  rw [hman]
  show acceptBands token count verify (count.toNat - 1) [(0, data)] (others ++ later) = _
  have hl := h.length
  exact acceptBands_started.2 ⟨rfl, band, others, later, rfl, rfl, by omega, hb, h.inside⟩

/-- What has been accepted when the pipelines start. -/
theorem acceptOne_started (h : acceptOne token conns = .started verify streams) : SingleFlow token conns verify ∨
    ∃ count rest es data band, Announced token conns count verify rest band ∧ Entry.decodeAll rest = .ok es data ∧
      streams = (0, data) :: band := by
  unfold acceptOne at h
  split at h
  · cases h
  · rename_i bs later
    split at h
    · cases h
    · rename_i v st rest hv
      split at h
      · cases h
      · rename_i es data hd
        split at h
        · cases h
          obtain ⟨hs, hc, hver, hvf⟩ := verifyHandshake_single.1 hv
          exact .inl ⟨bs, later, hs, rest, rfl, hc, hver, hvf⟩
        · rename_i count index
          obtain ⟨hf, rfl, hrange⟩ := verifyHandshake_multi.1 hv
          obtain ⟨rfl, band, others, later', rfl, rfl, hl, hb, hin⟩ := acceptBands_started.1 h
          have h2 : 2 ≤ count.toNat := UInt32.le_iff_toNat_le.1 hrange.1
          exact .inr ⟨count, rest, es, data, band, ⟨hrange, ⟨bs, others, later', rfl, hf, hb⟩, by omega, hin⟩, atEof_ok.1 hd, rfl⟩

theorem acceptOne_waiting (h : acceptOne token conns = .waiting) : Short token conns := by
  unfold acceptOne at h
  split at h
  · exact .inl rfl
  · rename_i bs later
    split at h
    · cases h
    · rename_i v st rest hv
      split at h
      · cases h
      · split at h
        · cases h
        · rename_i count index
          obtain ⟨hf, -, hrange⟩ := verifyHandshake_multi.1 hv
          have hlt := acceptBands_waiting h
          refine .inr ⟨bs, later, count, v, rest, rfl, hf, ?_⟩
          rw [List.length_cons]
          omega

/-- Indices inside the session are a bijection with the further connections as soon as none of them
occurs twice. -/
theorem Announced.once (h : Announced token conns count verify rest band) (hn : (band.map Prod.fst).Nodup) {k : UInt32}
    (h0 : k ≠ 0) (hk : k < count) : (band.map Prod.fst).count k = 1 := by
  refine List.count_eq_one_of_mem hn ?_
  -- as many different indices as there are
  have hinj : ((band.map Prod.fst).map UInt32.toNat).Nodup := hn.map fun a b => UInt32.toNat_inj.1
  have hsub : ((band.map Prod.fst).map UInt32.toNat).toFinset ⊆ Finset.Ico 1 count.toNat := by
    intro n hn'
    rw [List.mem_toFinset, List.map_map] at hn'
    obtain ⟨x, hx, rfl⟩ := List.mem_map.1 hn'
    obtain ⟨hx0, hxc⟩ := h.inside x hx
    rw [Finset.mem_Ico]
    refine ⟨Nat.one_le_iff_ne_zero.2 fun he => hx0 (UInt32.toNat_inj.1 he), UInt32.lt_iff_toNat_lt.1 hxc⟩
  have hcard : (Finset.Ico 1 count.toNat).card ≤ ((band.map Prod.fst).map UInt32.toNat).toFinset.card := by
    rw [List.toFinset_card_of_nodup hinj, List.length_map, List.length_map, Nat.card_Ico]
    have := h.length
    omega
  have hmem : k.toNat ∈ ((band.map Prod.fst).map UInt32.toNat).toFinset := by
    rw [Finset.eq_of_subset_of_card_le hsub hcard, Finset.mem_Ico]
    exact ⟨Nat.one_le_iff_ne_zero.2 fun he => h0 (UInt32.toNat_inj.1 he), UInt32.lt_iff_toNat_lt.1 hk⟩
  obtain ⟨k', hk', he⟩ := List.mem_map.1 (List.mem_toFinset.1 hmem)
  rwa [UInt32.toNat_inj.1 he] at hk'

theorem Announced.nodup (h : Announced token conns count verify rest band)
    (hone : ∀ k, k ≠ 0 → k < count → (band.map Prod.fst).count k = 1) : (band.map Prod.fst).Nodup := by
  refine List.nodup_iff_count_le_one.2 fun k => ?_
  by_cases hk : k ∈ band.map Prod.fst
  · obtain ⟨x, hx, rfl⟩ := List.mem_map.1 hk
    obtain ⟨h0, hlt⟩ := h.inside x hx
    exact (hone _ h0 hlt).le
  · rw [List.count_eq_zero_of_not_mem hk]
    omega

/-- Nothing stops a session with a repeated index, and it is not one session. -/
theorem Repeated.not_admits (h : Repeated token conns) : ¬ AdmitsSessions token conns := by
  obtain ⟨count, verify, primary, band, ha, hrep, es, data, hd⟩ := h
  rintro ⟨hstart, -⟩
  rcases hstart verify _ (acceptOne_multi ha hd) with hsingle | ⟨data', band', heq, hsession⟩
  · obtain ⟨bs, later, hs, rest, hc, ⟨hr, -⟩, hv, -⟩ := hsingle
    obtain ⟨first, others, later', hc', ⟨hs', ⟨hr', -⟩, hv', -⟩, -⟩ := ha.flows
    obtain ⟨rfl, -⟩ := List.cons.inj (hc.symm.trans hc')
    rw [hr] at hr'
    cases hr'
    rw [hv] at hv'
    cases hv'
  · obtain ⟨count', p', ha', hone⟩ := hsession.announced
    obtain ⟨rfl, -, -, rfl⟩ := ha.unique ha'
    exact hrep (ha.nodup hone)

/-- Admission is as it should be exactly where no index is announced twice: the loop checks each
connection against the primary and none against the others. -/
theorem admission (token : Token) (conns : List Bytes) : AdmitsSessions token conns ↔ ¬ Repeated token conns := by
  constructor
  · exact fun h hrep => hrep.not_admits h
  · intro hno
    refine ⟨fun verify streams h => ?_, acceptOne_waiting⟩
    rcases acceptOne_started h with hs | ⟨count, rest, es, data, band, ha, hd, rfl⟩
    · exact .inl hs
    · have hn : (band.map Prod.fst).Nodup := by
        by_contra hrep
        exact hno ⟨count, verify, rest, band, ha, hrep, es, data, hd⟩
      exact .inr ⟨data, band, rfl, ⟨count, rest, ha, fun k h0 hk => ha.once hn h0 hk⟩⟩

def zeroToken : Token := ⟨List.replicate 32 0, by decide⟩

/-- Three flows are announced, and the same one of them comes twice. -/
def twice : List Bytes :=
  [encodeHandshakeMulti 0 zeroToken 3 0 ++ Entry.terminator, encodeHandshakeMulti 0 zeroToken 3 1 ++ [],
    encodeHandshakeMulti 0 zeroToken 3 1 ++ []]

theorem twice_announced : Announced zeroToken twice 3 true Entry.terminator [(1, []), (1, [])] := by
  have hflow : ∀ index rest, FlowOf zeroToken 3 true (encodeHandshakeMulti 0 zeroToken 3 index ++ rest) index rest := fun index rest =>
    ⟨_, ⟨readHandshake_encodeMulti (by decide) zeroToken 3 index rest, rfl⟩, rfl, rfl, by simp [Handshake.verify]⟩
  exact ⟨by decide, ⟨_, [_, _], [], rfl, hflow 0 _, .cons (hflow 1 _) (.cons (hflow 1 _) .nil)⟩, rfl, by decide⟩

/-- The pipelines start with flow 1 twice and flow 2 missing. -/
theorem admission_twice : acceptOne zeroToken twice = .started true [(0, []), (1, []), (1, [])] ∧
    ¬ AdmitsSessions zeroToken twice := by
  have hd : Entry.decodeAll Entry.terminator = .ok [] [] := Entry.decodeAll_terminator []
  exact ⟨acceptOne_multi twice_announced hd, Repeated.not_admits ⟨3, true, _, _, twice_announced, by decide, [], [], hd⟩⟩

end Thunderflash.Recv
