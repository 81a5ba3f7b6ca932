/-
Both ends count the same: the sender by header and chunk on each lane, the receiver by entry on each
flow, the skipped files from the two sides of the bitmap. When both return Ok, what a flow of the
receiver completed is, entry by entry, what the lane on the other side was dealt.
-/
import Thunderflash.Session.Model
import Thunderflash.Session.Manifest

namespace Thunderflash.Session

open Codec Posix Lts

open Send (Item Sent keepUnskipped deal manifest)

variable {x : Setup} {fs0 : Fs} {s s' : State} {items : List Item}

/-! ## Sums over the flows -/

theorem foldl_stats (f g : Nat → Nat) : ∀ (l : List Nat) (st : Stats),
    l.foldl (fun st i => { st with files := st.files + f i, bytes := st.bytes + g i }) st =
      { st with files := st.files + (l.map f).sum, bytes := st.bytes + (l.map g).sum }
  | [], _ => rfl
  | i :: l, st => by
    rw [List.foldl_cons, foldl_stats f g l]
    simp only [List.map_cons, List.sum_cons, Nat.add_assoc]

theorem modify_flatten {α : Type*} (a : α) : ∀ {lanes : List (List α)} {k : Nat}, k < lanes.length →
    (lanes.modify k (· ++ [a])).flatten.Perm (lanes.flatten ++ [a])
  | lane :: lanes, 0, _ => by
    rw [List.modify_zero_cons, List.flatten_cons, List.flatten_cons, List.append_assoc, List.append_assoc]
    exact List.perm_append_comm.append_left lane
  | lane :: lanes, k + 1, h => by
    rw [List.modify_succ_cons, List.flatten_cons, List.flatten_cons, List.append_assoc]
    exact (modify_flatten a (by simpa using h)).append_left lane

theorem deal_foldl {count : Nat} (hc : 0 < count) :
    ∀ (xs : List (Item × Nat)) (lanes : List (List Item)), lanes.length = count →
    (xs.foldl (fun lanes x => lanes.modify (x.2 % count) (· ++ [x.1])) lanes).length = count ∧
      (xs.foldl (fun lanes x => lanes.modify (x.2 % count) (· ++ [x.1])) lanes).flatten.Perm (lanes.flatten ++ xs.map Prod.fst)
  | [], lanes, h => ⟨h, by simp⟩
  | y :: xs, lanes, h => by
    have hk : y.2 % count < lanes.length := by rw [h]; exact Nat.mod_lt _ hc
    obtain ⟨h1, h2⟩ := deal_foldl hc xs (lanes.modify (y.2 % count) (· ++ [y.1])) (by rw [List.length_modify, h])
    refine ⟨h1, h2.trans ?_⟩
    have := (modify_flatten y.1 hk).append_right (xs.map Prod.fst)
    simpa using this

/-- Dealing gives every lane its share and loses nothing. -/
theorem deal_perm {count : Nat} (hc : 0 < count) (items : List Item) :
    (deal count items).length = count ∧ (deal count items).flatten.Perm items := by
  obtain ⟨h1, h2⟩ := deal_foldl hc items.zipIdx (List.replicate count []) (by simp)
  refine ⟨h1, h2.trans ?_⟩
  rw [List.zipIdx_map_fst, List.flatten_replicate_nil, List.nil_append]

/-- A weight summed over the shares is the weight of the whole. -/
theorem sum_shares {count : Nat} (hc : 0 < count) (items : List Item) (w : Item → Nat) :
    ((List.range count).map fun i => (((deal count items).getD i []).map w).sum).sum = (items.map w).sum := by
  obtain ⟨hlen, hperm⟩ := deal_perm hc items
  have hall : (List.range count).map (fun i => (deal count items).getD i []) = deal count items := by
    refine List.ext_getElem (by simp [hlen]) fun i h1 h2 => ?_
    simp [h2]
  calc ((List.range count).map fun i => (((deal count items).getD i []).map w).sum).sum
      = (((List.range count).map fun i => (deal count items).getD i []).map fun l => (l.map w).sum).sum := by
        rw [List.map_map]; rfl
    _ = ((deal count items).flatten.map w).sum := by
        rw [hall, List.map_flatten, List.sum_flatten, List.map_map]; rfl
    _ = (items.map w).sum := (hperm.map w).sum_eq

/-! ## The filter -/

/-- Both ends count the same files as skipped. -/
theorem keepUnskipped_stats : ∀ (items : List Item) (bits : List Bool), bits.length = Send.offered items →
    (keepUnskipped items bits).2 = Recv.skipped ((Recv.filesOf (items.map Item.entry)).zip bits)
  | [], _, _ => rfl
  | item :: items, bits, h => by
    by_cases hk : item.entry.kind = .file
    · have hf : item.isFile = true := by simp [Item.isFile, hk]
      have hfiles : Recv.filesOf ((item :: items).map Item.entry) = item.entry :: Recv.filesOf (items.map Item.entry) := by
        simp [Recv.filesOf, hk]
      have hoff : Send.offered (item :: items) = Send.offered items + 1 := by simp [Send.offered, hf]
      rw [hoff] at h
      cases bits with
      | nil => cases h
      | cons b bits =>
        have ih := keepUnskipped_stats items bits (Nat.succ.inj h)
        rw [hfiles, List.zip_cons_cons, keepUnskipped, if_neg (by simp [hk])]
        rcases hks : keepUnskipped items bits with ⟨kept, stats⟩
        rw [hks] at ih
        have ih : stats = _ := ih
        cases b with
        | true =>
          rw [List.head?_cons, if_pos rfl, List.tail_cons, hks, ih]
          simp [Recv.skipped, Nat.add_comm]
        | false =>
          rw [List.head?_cons, if_neg (by simp), List.tail_cons, hks, ih]
          simp [Recv.skipped]
    · have hfiles : Recv.filesOf ((item :: items).map Item.entry) = Recv.filesOf (items.map Item.entry) := by
        simp [Recv.filesOf, hk]
      have hoff : Send.offered (item :: items) = Send.offered items := by
        simp [Send.offered, Item.isFile, hk]
      rw [hfiles, keepUnskipped, if_pos hk]
      exact keepUnskipped_stats items bits (h.trans hoff)

/-! ## The frames of a flow -/

/-- The two ends give a payload the same digest. -/
structure SameDigest (scfg : Send.Cfg) (rcfg : Recv.Cfg) : Prop where
  verify : scfg.verify = rcfg.verify
  blake3 : scfg.blake3 = rcfg.blake3

/-- A frame sent and the frame received are one. -/
structure Same (fr : Sent) (fr' : Recv.Frame) : Prop where
  entry : fr'.entry = fr.item.entry
  payload : fr'.payload = fr.payload

theorem Same.trailer {scfg : Send.Cfg} {rcfg : Recv.Cfg} {fr : Sent} {fr' : Recv.Frame} (h : Same fr fr') (hd : SameDigest scfg rcfg)
    (hw : fr'.Whole rcfg) : fr'.trailer = Send.trailerOf scfg fr.item.entry fr.payload := by
  rw [hw.trailer, ← h.entry, ← h.payload]
  unfold Send.trailerOf Recv.digestOf
  rw [hd.verify, hd.blake3]
  have hne := hw.framed.kind
  cases hk : fr'.entry.kind <;> simp_all

theorem payloadLen_eq {e : Entry} (hf : e.Framed) : Send.payloadLen e = if e.kind = .dir then 0 else e.size.toNat := by
  have := hf.kind
  unfold Send.payloadLen
  cases hk : e.kind <;> simp_all

/-- Whole frames on one side and the other that make one stream are the same frames. -/
theorem frames_same {scfg : Send.Cfg} {rcfg : Recv.Cfg} (hd : SameDigest scfg rcfg) : ∀ {frs : List Sent} {done : List Recv.Frame} {t : Bytes},
    (∀ fr ∈ frs, fr.Whole ∧ fr.item.header = fr.item.entry.encode ∧ fr.item.entry.Framed) → (∀ fr ∈ done, fr.Whole rcfg) →
    Recv.encodeAll done ++ ([0] ++ t) = Send.encodeAll scfg frs ++ [0] → List.Forall₂ Same frs done ∧ t = []
  | [], [], t, _, _, h => by
    have h : [0] ++ t = [0] := h
    exact ⟨.nil, by simpa using h⟩
  | [], fr' :: done, t, _, hr, h => by
    have hw := hr fr' (by simp)
    obtain ⟨rest, hdec⟩ : ∃ rest, Entry.decode (Recv.encodeAll (fr' :: done) ++ ([0] ++ t)) = .ok (some fr'.entry) rest := by
      rw [Recv.encodeAll_cons, Recv.Frame.encode, List.append_assoc, List.append_assoc]
      exact ⟨_, Entry.decode_encode hw.framed _⟩
    rw [h] at hdec
    have hend : Entry.decode (Send.encodeAll scfg [] ++ [0]) = .ok none [] := Entry.decode_terminator []
    rw [hend] at hdec
    cases hdec
  | fr :: frs, [], t, hs, _, h => by
    obtain ⟨-, hh, hf⟩ := hs fr (by simp)
    obtain ⟨rest, hdec⟩ : ∃ rest, Entry.decode (Send.encodeAll scfg (fr :: frs) ++ [0]) = .ok (some fr.item.entry) rest := by
      show ∃ rest, Entry.decode (fr.encode scfg ++ Send.encodeAll scfg frs ++ [0]) = _
      rw [Sent.encode, hh, List.append_assoc, List.append_assoc]
      exact ⟨_, Entry.decode_encode hf _⟩
    rw [← h] at hdec
    have hend : Entry.decode (Recv.encodeAll [] ++ ([0] ++ t)) = .ok none t := Entry.decode_terminator t
    rw [hend] at hdec
    cases hdec
  | fr :: frs, fr' :: done, t, hs, hr, h => by
    obtain ⟨hp, hh, hf⟩ := hs fr (by simp)
    have hw := hr fr' (by simp)
    have hl : Recv.encodeAll (fr' :: done) ++ ([0] ++ t) =
        fr'.entry.encode ++ (fr'.payload ++ (fr'.trailer ++ (Recv.encodeAll done ++ ([0] ++ t)))) := by
      simp [Recv.Frame.encode]
    have hr' : Send.encodeAll scfg (fr :: frs) ++ [0] =
        fr.item.entry.encode ++ (fr.payload ++ (Send.trailerOf scfg fr.item.entry fr.payload ++ (Send.encodeAll scfg frs ++ [0]))) := by
      show fr.encode scfg ++ Send.encodeAll scfg frs ++ [0] = _
      simp [Sent.encode, hh]
    rw [hl, hr'] at h
    -- the entry first, then as many bytes as it announces, then their digest
    have hdec := Entry.decode_encode hw.framed (fr'.payload ++ (fr'.trailer ++ (Recv.encodeAll done ++ ([0] ++ t))))
    rw [h, Entry.decode_encode hf] at hdec
    injection hdec with hentry hrest
    have hentry : fr.item.entry = fr'.entry := Option.some.inj hentry
    have hlen : fr.payload.length = fr'.payload.length := by
      rw [hw.payload, ← payloadLen_eq hw.framed, ← hentry]
      exact hp
    obtain ⟨hpay, hrest⟩ := List.append_inj hrest hlen
    have hsame : Same fr fr' := ⟨hentry.symm, hpay.symm⟩
    rw [← hsame.trailer hd hw] at hrest
    have hrest := List.append_cancel_left hrest
    obtain ⟨htail, ht⟩ := frames_same hd (fun y hy => hs y (by simp [hy])) (fun y hy => hr y (by simp [hy])) hrest.symm
    exact ⟨.cons hsame htail, ht⟩

/-- Frames that are the same have the same number and the same bytes. -/
theorem same_counts {rcfg : Recv.Cfg} {frs : List Sent} {done : List Recv.Frame} (h : List.Forall₂ Same frs done)
    (hr : ∀ fr ∈ done, fr.Whole rcfg) : done.length = (frs.map Sent.item).length ∧ Recv.bytesOf done = Send.total (frs.map Sent.item) := by
  induction h with
  | nil => exact ⟨rfl, rfl⟩
  | @cons fr fr' frs done hsame _ ih =>
    obtain ⟨h1, h2⟩ := ih fun y hy => hr y (by simp [hy])
    refine ⟨by simpa using h1, ?_⟩
    have hlen : Recv.Flow.entryBytes fr'.entry = Send.payloadLen fr.item.entry := by
      rw [← hsame.entry, payloadLen_eq (hr fr' (by simp)).framed]
      rfl
    unfold Recv.bytesOf Send.total at h2 ⊢
    simp only [List.map_cons, List.sum_cons, hlen, h2]

/-! ## Both ends -/

/-- What `visit` makes of a tree: entries with an encoding, their directories announcing no bytes. -/
structure Visited (items : List Item) : Prop where
  walked : Send.Walked items
  dirs : ∀ item ∈ items, item.entry.kind = .dir → item.entry.size = 0

theorem keepUnskipped_sublist : ∀ (items : List Item) (bits : List Bool), (keepUnskipped items bits).1.Sublist items
  | [], _ => .slnil
  | item :: items, bits => by
    unfold Send.keepUnskipped
    dsimp only
    split
    · exact (keepUnskipped_sublist items bits).cons_cons item
    · split
      · exact (keepUnskipped_sublist items bits.tail).cons item
      · exact (keepUnskipped_sublist items bits.tail).cons_cons item

theorem mem_share {job : Send.Job} {have_ : List Bool} {i : Nat} {item : Item} (hf : 0 < job.flows) (h : item ∈ job.share have_ i) :
    item ∈ job.items := by
  apply (keepUnskipped_sublist job.items have_).subset
  apply (deal_perm hf _).2.mem_iff.1
  unfold Send.Job.share at h
  rw [List.getD_eq_getElem?_getD] at h
  cases hg : (deal job.flows (job.kept have_))[i]? with
  | none => rw [hg] at h; cases h
  | some l => rw [hg] at h; exact List.mem_flatten.2 ⟨l, List.mem_of_getElem? hg, h⟩

theorem sender_manifest (hv : Visited x.items) : manifest x.items = Recv.encodings (x.items.map Item.entry) ++ Entry.terminator :=
  hv.walked.manifest_eq

/-- The manifest was read to its end, and the answer the sender filtered by is the receiver's. -/
theorem answers_same (hv : Visited x.items) (h : Reachable x fs0 s) {st st' : Stats} (hs : s.snd.main = .returned (.ok st))
    (hr : s.rcv.main = .returned (.ok st')) : s.rcv.got = manifest x.items ∧ s.snd.have_ = s.rcv.bits ∧
      s.rcv.bits.length = Send.offered x.items ∧ s.rcv.stats = (keepUnskipped x.items s.snd.have_).2 := by
  have hl := linked_inv h
  have hsok := Send.session_inv (sender_reachable h)
  rw [hs] at hsok
  obtain ⟨⟨hdealt, -⟩, -⟩ := hsok
  have htally := Recv.tally_inv (receiver_reachable h)
  rw [hr] at htally
  obtain ⟨⟨es, htal, hgot⟩, hreply⟩ := htally
  have hpre : s.rcv.got <+: s.snd.sent 0 := by
    have hpart := (hl.wired.part 0).trans (List.take_prefix ..)
    unfold Recv.State.stream at hpart
    rw [if_pos rfl] at hpart
    exact (List.prefix_append ..).trans hpart
  have hes : es = x.items.map Item.entry := by
    have hpart : Recv.encodings es ++ Entry.terminator <+:
        Recv.encodings (x.items.map Item.entry) ++ (Entry.terminator ++ (s.snd.lane 0).wrote) := by
      rw [← hgot, ← List.append_assoc, ← sender_manifest hv, ← show s.snd.wrote = manifest x.items from hdealt.wrote]
      exact hpre
    exact Recv.encodings_unique htal.framed hv.walked.framed hpart
  subst hes
  have hoff : s.rcv.bits.length = Send.offered x.items := by
    rw [htal.length, Recv.filesOf, List.filter_map, List.length_map]
    rfl
  have hrep := hl.replied
  rw [hs] at hrep
  obtain ⟨rest, hread⟩ := hrep
  have hhave : s.snd.have_ = s.rcv.bits := by
    have hread' := readBitmap_encodeBitmap s.rcv.bits [ACK]
    rw [hoff, ← hreply, hread] at hread'
    injection hread'
  refine ⟨by rw [hgot, sender_manifest hv], hhave, hoff, ?_⟩
  rw [htal.stats, hhave]
  exact (keepUnskipped_stats x.items s.rcv.bits hoff).symm

/-- A flow of the receiver completed what the lane on the other side was dealt. -/
theorem flow_same (hv : Visited x.items) (hf : 0 < x.flows) (h : Reachable x fs0 s) {st st' : Stats}
    (hs : s.snd.main = .returned (.ok st)) (hr : s.rcv.main = .returned (.ok st')) {i : Nat} (hi : i < x.flows) :
    (s.rcv.flow i).stats.files = (x.sender.share s.snd.have_ i).length ∧
      (s.rcv.flow i).stats.bytes = Send.total (x.sender.share s.snd.have_ i) := by
  have hgot := (answers_same hv h hs hr).1
  have hsok := Send.session_inv (sender_reachable h)
  rw [hs] at hsok
  obtain ⟨⟨hdealt, hall⟩, -⟩ := hsok
  obtain ⟨-, ⟨frs, hfr, hwrote⟩, -⟩ := Send.lane_framed (hdealt.lanes i)
  rw [if_pos (hall i hi)] at hwrote
  have hph := Recv.phase_ok (receiver_reachable h)
  rw [hr] at hph
  have hinv := Recv.flow_inv (receiver_reachable h) i
  have hsucc := hinv.success (hph i hi)
  have hlog : (s.rcv.flow i).log.got <+: (s.snd.lane i).wrote := by
    have hpart := ((linked_inv h).wired.part i).trans (List.take_prefix ..)
    unfold Recv.State.stream Send.State.sent at hpart
    rw [hgot, show s.snd.wrote = manifest x.items from hdealt.wrote] at hpart
    exact (List.prefix_append ..).trans ((List.prefix_append_right_inj _).1 hpart)
  obtain ⟨t, ht⟩ := hlog
  rw [hsucc.got, hwrote, List.append_assoc] at ht
  have hwalk : ∀ fr ∈ frs, fr.Whole ∧ fr.item.header = fr.item.entry.encode ∧ fr.item.entry.Framed := by
    intro fr hfr'
    have hmem : fr.item ∈ x.sender.share s.snd.have_ i := hfr.items ▸ List.mem_map_of_mem hfr'
    exact ⟨hfr.whole fr hfr', hv.walked _ (mem_share hf hmem)⟩
  obtain ⟨hsame, -⟩ := frames_same ⟨rfl, rfl⟩ hwalk hinv.net.log.whole ht
  obtain ⟨h1, h2⟩ := same_counts hsame hinv.net.log.whole
  rw [hfr.items] at h1 h2
  have hstated := Recv.stated_inv (receiver_reachable h) i
  exact ⟨hstated.files.trans h1, hstated.bytes.trans h2⟩

/-- The progress counters, over all lanes. -/
def snapshot (x : Setup) (s : State) : Nat × Nat :=
  (((List.range x.flows).map fun i => (s.snd.lane i).finished).sum, ((List.range x.flows).map fun i => (s.snd.lane i).moved).sum)

theorem sum_range_congr {f g : Nat → Nat} {n : Nat} (h : ∀ i < n, f i = g i) :
    ((List.range n).map f).sum = ((List.range n).map g).sum := by
  rw [List.map_congr_left fun i hi => h i (List.mem_range.1 hi)]

section Returned

variable (hv : Visited x.items) (hf : 1 ≤ x.flows) (h : Reachable x fs0 s) {st st' : Stats}
  (hs : s.snd.main = .returned (.ok st)) (hr : s.rcv.main = .returned (.ok st'))

include hf

theorem sum_kept (have_ : List Bool) (w : Item → Nat) :
    ((List.range x.flows).map fun i => ((x.sender.share have_ i).map w).sum).sum = ((x.sender.kept have_).map w).sum :=
  sum_shares hf (x.sender.kept have_) w

theorem sum_lengths (have_ : List Bool) :
    ((List.range x.flows).map fun i => (x.sender.share have_ i).length).sum = (x.sender.kept have_).length := by
  simpa using sum_kept hf have_ fun _ => 1

/-- What a session that skipped by this answer counts. -/
def counted (x : Setup) (have_ : List Bool) : Stats :=
  { (keepUnskipped x.items have_).2 with
    files := (keepUnskipped x.items have_).2.files + (x.sender.kept have_).length
    bytes := (keepUnskipped x.items have_).2.bytes + Send.total (x.sender.kept have_) }

include h hs

theorem sender_counted : st = counted x s.snd.have_ := by
  have hsok := Send.session_inv (sender_reachable h)
  rw [hs] at hsok
  obtain ⟨⟨hdealt, hall⟩, hst⟩ := hsok
  have hlane := fun i hi => Send.lane_accounts (hdealt.lanes i) (hall i hi)
  have hbytes := sum_kept hf s.snd.have_ fun item => Send.payloadLen item.entry
  rw [hst, Send.totalStats, foldl_stats, counted, ← sum_lengths hf, Send.total, ← hbytes]
  congr 2
  · exact sum_range_congr fun i hi => by rw [(hlane i hi).1]
  · exact sum_range_congr fun i hi => by rw [(hlane i hi).1]; rfl

include hv hr

theorem receiver_counted : st' = counted x s.snd.have_ := by
  obtain ⟨-, -, -, hskip⟩ := answers_same hv h hs hr
  have hbytes := sum_kept hf s.snd.have_ fun item => Send.payloadLen item.entry
  rw [Recv.returned_total (receiver_reachable h) hr, Recv.totalStats, foldl_stats, counted, ← sum_lengths hf, Send.total, ← hbytes,
    ← hskip]
  congr 2
  · exact sum_range_congr fun i hi => (flow_same hv hf h hs hr hi).1
  · exact sum_range_congr fun i hi => (flow_same hv hf h hs hr hi).2

/-- Both ends count the same. -/
theorem same_stats : st = st' := (sender_counted hf h hs).trans (receiver_counted hv hf h hs hr).symm

end Returned

/-- When both ends return Ok they return the same stats: every item kept and its bytes, every file
skipped and its bytes; and the progress counters have come to the totals set after the manifest. -/
theorem stats_agree (hv : Visited x.items) (hf : 1 ≤ x.flows) (h : Reachable x fs0 s) {st st' : Stats}
    (hs : s.snd.main = .returned (.ok st)) (hr : s.rcv.main = .returned (.ok st')) :
    st = st' ∧ st.files = (x.sender.kept s.snd.have_).length ∧ st.bytes = Send.total (x.sender.kept s.snd.have_) ∧
      snapshot x s = s.snd.totals := by
  have hsend := sender_counted hf h hs
  obtain ⟨-, hhave, hoff, -⟩ := answers_same hv h hs hr
  have hzero := keepUnskipped_stats x.items s.snd.have_ (by rw [hhave]; exact hoff)
  refine ⟨same_stats hv hf h hs hr, ?_, ?_, ?_⟩
  · rw [hsend, counted, hzero]
    exact Nat.zero_add _
  · rw [hsend, counted, hzero]
    exact Nat.zero_add _
  · have hsok := Send.session_inv (sender_reachable h)
    rw [hs] at hsok
    obtain ⟨⟨hdealt, hall⟩, -⟩ := hsok
    have hlane := fun i hi => Send.lane_accounts (hdealt.lanes i) (hall i hi)
    have hsize : (x.sender.kept s.snd.have_).map (fun item => item.entry.size.toNat) =
        (x.sender.kept s.snd.have_).map fun item => Send.payloadLen item.entry := by
      refine List.map_congr_left fun item hi => ?_
      have hmem := (keepUnskipped_sublist x.items s.snd.have_).subset hi
      rw [payloadLen_eq (hv.walked item hmem).2]
      split
      · rename_i hk
        rw [hv.dirs item hmem hk]
        rfl
      · rfl
    rw [hdealt.totals, hsize, ← sum_lengths hf]
    refine Prod.ext ?_ ?_
    · exact sum_range_congr fun i hi => (hlane i hi).2.1
    · show ((List.range x.flows).map fun i => (s.snd.lane i).moved).sum = _
      rw [← sum_kept hf s.snd.have_]
      exact sum_range_congr fun i hi => (hlane i hi).2.2

def moves (n : Nat) : Send.Choice := ⟨none, [9], n⟩

def takes : Recv.Choice := ⟨none, 7, 1, 0⟩

/-- A destination that has `t`, and a v4 session that sends `t`, a file of one byte and a directory
to it over two flows. -/
def hasT : Fs := ⟨[⟨.dir [([116], 1)], 0o755, 0⟩, ⟨.file [5], 0o644, 7⟩]⟩

def three : List Item := [Send.makeItem [116] ⟨[116], by decide⟩ .file 1 0o644 7,
  Send.makeItem [117] ⟨[117], by decide⟩ .file 1 0o644 7, Send.makeItem [118] ⟨[118], by decide⟩ .dir 0 0o755 0]

def pair : Setup := ⟨three, true, 2, fun _ => ⟨List.replicate 32 2, by decide⟩, 1, 1, 0, false, 0o022⟩

def agreeing : List Act :=
  let read (i n : Nat) : List Act := List.replicate n (.lane i (.read (moves 0)))
  let hash (i n : Nat) : List Act := List.replicate n (.lane i .hash)
  let sock (i : Nat) (ns : List Nat) : List Act := ns.map fun n => .lane i (.sock (moves n))
  let net (i n : Nat) : List Act := List.replicate n (.net i takes)
  let hashR (n : Nat) : List Act := List.replicate n (.hash 0 takes)
  let main (n : Nat) : List Act := List.replicate n (.recvMain takes)
  [.sendMain (moves 73), .sendMain (moves 0), .deliver 0 99] ++ main 10 ++ [.reply 9, .sendMain (moves 0), .sendMain (moves 0)] ++
    read 0 4 ++ hash 0 1 ++ read 0 1 ++ hash 0 2 ++ read 0 1 ++ sock 0 [0] ++ hash 0 2 ++ sock 0 [24, 0, 0] ++ hash 0 2 ++
    sock 0 [1, 0, 0, 32, 0, 0, 0, 0, 0] ++ [.deliver 0 99] ++ net 0 7 ++ hashR 1 ++ net 0 1 ++ hashR 2 ++ net 0 1 ++
    [.writer 0 takes] ++ hashR 2 ++ net 0 4 ++ hashR 1 ++ [.writer 0 takes] ++ hashR 2 ++ List.replicate 6 (.writer 0 takes) ++
    read 1 1 ++ hash 1 3 ++ sock 1 [0, 24, 0, 0, 0, 0, 0] ++ [.sendMain (moves 0), .deliver 1 99] ++ net 1 6 ++
    [.hash 1 takes, .writer 1 takes] ++ main 3 ++ [.reply 9, .sendMain (moves 0)]

theorem stats_agree_pair : ∃ s, run (step pair) (.init pair hasT) agreeing = some s ∧
    s.snd.main = .returned (.ok ⟨2, 1, 1, 1⟩) ∧ s.rcv.main = .returned (.ok ⟨2, 1, 1, 1⟩) ∧
    (⟨2, 1, 1, 1⟩ : Stats) = ⟨2, 1, 1, 1⟩ ∧ (⟨2, 1, 1, 1⟩ : Stats).files = (pair.sender.kept s.snd.have_).length ∧
    (⟨2, 1, 1, 1⟩ : Stats).bytes = Send.total (pair.sender.kept s.snd.have_) ∧ snapshot pair s = s.snd.totals := by
  have hrun : ((run (step pair) (.init pair hasT) agreeing).any fun s =>
      decide (s.snd.main = .returned (.ok ⟨2, 1, 1, 1⟩) ∧ s.rcv.main = .returned (.ok ⟨2, 1, 1, 1⟩))) = true := by decide +kernel
  obtain ⟨s, hs, hv⟩ := (Option.any_eq_true _ _).1 hrun
  obtain ⟨h1, h2⟩ := of_decide_eq_true hv
  have hvisited : Visited three := by
    refine ⟨?_, ?_⟩
    · intro item hi
      fin_cases hi <;> exact ⟨rfl, by decide, by decide, by decide⟩
    · intro item hi
      fin_cases hi <;> decide
  exact ⟨s, hs, h1, h2, @stats_agree pair hasT s hvisited (by decide) (.of_run hs) _ _ h1 h2⟩

end Thunderflash.Session
