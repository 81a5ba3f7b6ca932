/-
What an acknowledged session has brought: when the sender returns Ok, the destination is the tree that
putting the items sent into it one after another makes, each with what its source holds.
-/
import Thunderflash.Session.Withheld
import Thunderflash.Send.Steady
import Thunderflash.Recv.Outcome

namespace Thunderflash.Session

open Codec Posix Lts

open Send (Item Sent parcel)

variable {x : Setup} {fs0 : Fs} {s : State} {content : Item → Bytes} {items : List Item} {item : Item} {i : Nat} {st : Stats}

/-! ## What the items make of a destination -/

/-- Where the receiver puts an item. -/
def landing (item : Item) : List Name :=
  match sanitize item.entry.path.bytes with
  | .ok comps => comps
  | .error _ => []

/-- What an item puts there. -/
def planted (content : Item → Bytes) (item : Item) : List Name × Option Leaf :=
  (landing item, match item.entry.kind with
    | .file => some (.file (parcel content item).payload)
    | .symlink => some (.symlink (parcel content item).payload)
    | _ => none)

/-- The tree that putting the items there one after another makes. -/
def arrive (content : Item → Bytes) (before : List Name → Option Leaf) (items : List Item) : List Name → Option Leaf :=
  (items.map (planted content)).foldl (Tree.place .dir) before

/-- The reads of the sender give what its sources hold. -/
def Steady (content : Item → Bytes) (s : State) (a : Act) (_ : State) : Prop :=
  match a with
  | .lane i b => Send.Steady content (s.snd.lane i) b (s.snd.lane i)
  | _ => True

instance (content : Item → Bytes) (s : State) (a : Act) (s' : State) : Decidable (Steady content s a s') := by
  unfold Steady
  split <;> infer_instance

/-- Conditions on the steps of the lanes are those of a sender by itself. -/
theorem sender_lanes {ok : Send.Lane → Send.Act → Send.Lane → Prop} {ok' : State → Act → State → Prop}
    (hok : ∀ s i b s', ok' s (.lane i b) s' → ∀ ln, ok (s.snd.lane i) b ln) (h : Reach (step x) ok' (.init x fs0) s) :
    Reach (Send.sessionStep x.sender) (Send.OnLanes ok) (.init x.sender) s.snd := by
  refine h.project State.snd fun s a s' hst ho => ?_
  have hlane : ∀ {b : Send.SessionAct} {snd : Send.State}, Send.sessionStep x.sender s.snd b = some snd →
      (∀ i b', b = .lane i b' → ∀ ln, ok (s.snd.lane i) b' ln) →
      Reach (Send.sessionStep x.sender) (Send.OnLanes ok) s.snd snd :=
    fun hs hb => .step .init hs fun i b' he => hb i b' he _
  have hquiet : ∀ {b : Send.SessionAct} {snd : Send.State}, Send.sessionStep x.sender s.snd b = some snd →
      (∀ i b', b ≠ .lane i b') → Reach (Send.sessionStep x.sender) (Send.OnLanes ok) s.snd snd :=
    fun hs hb => hlane hs fun i b' he => absurd he (hb i b')
  cases a with
  | lane i b =>
    obtain ⟨snd, hs, rfl⟩ := Option.map_eq_some_iff.1 hst
    refine hlane hs ?_
    rintro k b' he
    cases he
    exact hok s i b _ ho
  | sendMain c =>
    obtain ⟨snd, hs, rfl⟩ := Option.map_eq_some_iff.1 hst
    exact hquiet hs nofun
  | cutReply =>
    obtain ⟨snd, hs, rfl⟩ := Option.map_eq_some_iff.1 (show s.send x .cut = some s' from hst)
    exact hquiet hs nofun
  | reply count =>
    obtain ⟨snd, hs, rfl⟩ := Option.map_eq_some_iff.1 hst
    exact hquiet hs nofun
  | deliver | net | hash | writer | recvMain =>
    obtain ⟨rcv, -, rfl⟩ := Option.map_eq_some_iff.1 hst
    exact .init
  | cut i keep =>
    obtain ⟨rcv, -, rfl⟩ := Option.map_eq_some_iff.1 (show s.recv x (.cut i keep) = some s' from hst)
    exact .init

theorem sender_steady (h : Reach (step x) (Steady content) (.init x fs0) s) :
    Reach (Send.sessionStep x.sender) (Send.OnLanes (Send.Steady content)) (.init x.sender) s.snd :=
  sender_lanes (fun _ _ b _ ho _ => by cases b <;> exact ho) h

/-! ## From lane to flow -/

section Acknowledged

variable (hv : Visited x.items) (hf : 1 ≤ x.flows) (h : Reach (step x) (Steady content) (.init x fs0) s)
  (hs : s.snd.main = .returned (.ok st))

include hv hf h hs

/-- A flow of the receiver has completed the share of its lane, each item with what its source holds. -/
theorem flow_delivered (hi : i < x.flows) :
    List.Forall₂ Same ((x.sender.share s.snd.have_ i).map (parcel content)) (s.rcv.flow i).log.done := by
  obtain ⟨st', hr⟩ := receiver_ok hv h.any hs
  have hsok := Send.session_inv (sender_reachable h.any)
  rw [hs] at hsok
  obtain ⟨⟨hdealt, -⟩, -⟩ := hsok
  obtain ⟨hfr, hwrote⟩ := Send.shares_sent (sender_steady h) hs hi
  have hinv := Recv.flow_inv (receiver_reachable h.any) i
  have hph := Recv.phase_ok (receiver_reachable h.any)
  rw [hr] at hph
  have hlog : (s.rcv.flow i).log.got <+: (s.snd.lane i).wrote := by
    have hpart := ((linked_inv h.any).wired.part i).trans (List.take_prefix ..)
    unfold Recv.State.stream Send.State.sent at hpart
    rw [(answers_same hv h.any hs hr).1, show s.snd.wrote = Send.manifest x.items from hdealt.wrote] at hpart
    exact (List.prefix_append ..).trans ((List.prefix_append_right_inj _).1 hpart)
  obtain ⟨t, ht⟩ := hlog
  rw [(hinv.success (hph i hi)).got, hwrote, List.append_assoc] at ht
  refine (frames_same ⟨rfl, rfl⟩ ?_ hinv.net.log.whole ht).1
  intro fr hfr'
  obtain ⟨item, hitem, rfl⟩ := List.mem_map.1 hfr'
  have hf : 0 < x.sender.flows := hf
  exact ⟨hfr.whole _ hfr', hv.walked _ (mem_share hf hitem)⟩

theorem flow_planted (hi : i < x.flows) :
    (s.rcv.flow i).log.done.map Recv.Frame.planted = (x.sender.share s.snd.have_ i).map (planted content) := by
  have hsame := flow_delivered hv hf h hs hi
  rw [List.forall₂_map_left_iff] at hsame
  have hinv := Recv.flow_inv (receiver_reachable h.any) i
  have hsane : ∀ fr ∈ (s.rcv.flow i).log.done, sanitize fr.entry.path.bytes = .ok fr.comps := by
    intro fr hfr
    exact hinv.net.log.sane (fr.entry, fr.comps)
      (hinv.net.log.heard.subset (List.mem_map_of_mem (f := fun fr : Recv.Frame => (fr.entry, fr.comps)) hfr))
  generalize x.sender.share s.snd.have_ i = share at hsame ⊢
  generalize (s.rcv.flow i).log.done = done at hsame hsane ⊢
  revert hsane
  induction hsame with
  | nil => exact fun _ => rfl
  | @cons item fr items frs hit _ ih =>
    intro hsane
    have hpath := hsane fr (by simp)
    rw [List.map_cons, List.map_cons, ih fun y hy => hsane y (by simp [hy])]
    have he : fr.entry = item.entry := hit.entry
    have hp : fr.payload = (parcel content item).payload := hit.payload
    rw [he] at hpath
    congr 1
    unfold Recv.Frame.planted planted landing
    cases hk : item.entry.kind <;> simp [he, hpath, hp, hk]

/-- The receiver has completed the items sent, and nothing else. -/
theorem frames_planted : ((s.rcv.frames x.receiver).map Recv.Frame.planted).Perm
    ((x.sender.kept s.snd.have_).map (planted content)) := by
  obtain ⟨hlen, hperm⟩ := deal_perm hf (x.sender.kept s.snd.have_)
  have hall : (s.rcv.frames x.receiver).map Recv.Frame.planted =
      (Send.deal x.flows (x.sender.kept s.snd.have_)).flatten.map (planted content) := by
    rw [Recv.State.frames, List.map_flatMap, List.map_flatten, List.flatMap_def]
    congr 1
    refine List.ext_getElem (by simp [hlen, Setup.receiver]) fun i h1 h2 => ?_
    have hi : i < x.flows := by simpa [Setup.receiver] using h1
    simp only [List.getElem_map, List.getElem_range]
    rw [flow_planted hv hf h hs hi]
    congr 1
    unfold Send.Job.share
    rw [List.getD_eq_getElem?_getD, List.getElem?_eq_getElem (by rw [show x.sender.flows = x.flows from rfl, hlen]; exact hi)]
    rfl
  rw [hall]
  exact hperm.map _

/-- The entries the receiver heard are items. -/
theorem heard_item (hi : i < x.flows) {y : Entry × List Name} (hy : y ∈ (s.rcv.flow i).log.heard) :
    ∃ item ∈ x.items, landing item = y.2 := by
  obtain ⟨st', hr⟩ := receiver_ok hv h.any hs
  obtain ⟨fr, hfr, -, hc⟩ := Recv.frame_of_heard (receiver_reachable h.any) hr hy
  have hmem : fr.planted ∈ (s.rcv.flow i).log.done.map Recv.Frame.planted := List.mem_map_of_mem hfr
  rw [flow_planted hv hf h hs hi] at hmem
  obtain ⟨item, hitem, he⟩ := List.mem_map.1 hmem
  have hf : 0 < x.sender.flows := hf
  exact ⟨item, mem_share hf hitem, (congrArg Prod.fst he).trans hc⟩

end Acknowledged

/-! ## The tree at the end -/

/-- No scratch name the receiver drew is an item's last name. -/
def Undrawn (x : Setup) (s : State) : Prop :=
  ∀ i < x.flows, ∀ t ∈ (s.rcv.flow i).log.scratches, ∀ item ∈ x.items, t.name ≠ (landing item).getLastD []

instance (x : Setup) (s : State) : Decidable (Undrawn x s) := by
  unfold Undrawn
  infer_instance

theorem planted_nodup (hp : (items.map landing).Nodup) : ((items.map (planted content)).map Prod.fst).Nodup := by
  rw [List.map_map]
  exact hp

section Acknowledged

variable (hv : Visited x.items) (hf : 1 ≤ x.flows) (hp : (x.items.map landing).Nodup)
  (h : Reach (step x) (Steady content) (.init x fs0) s) (hn : Undrawn x s) (hs : s.snd.main = .returned (.ok st))

include hv hf hp h hn hs

/-- The entries the flows heard have distinct paths. -/
theorem heard_unique : Recv.Unique s.rcv := by
  have hreach := receiver_reachable h.any
  obtain ⟨st', hr⟩ := receiver_ok hv h.any hs
  refine .of_reach hreach ?_ ?_
  · intro i hi k hk t ht y hy
    obtain ⟨item, hitem, he⟩ := heard_item hv hf h hs hk hy
    rw [← he]
    exact hn i hi t ht item hitem
  · have hkept : ((x.sender.kept s.snd.have_).map landing).Nodup :=
      hp.sublist ((keepUnskipped_sublist x.items s.snd.have_).map landing)
    have hperm := (frames_planted hv hf h hs).map Prod.fst
    rw [List.map_map (f := planted content)] at hperm
    have hnodup := hperm.nodup_iff.2 hkept
    rw [Recv.State.frames, List.map_flatMap, List.map_flatMap] at hnodup
    refine Eq.mp (congrArg List.Nodup (List.flatMap_congr fun i _ => ?_)) hnodup
    rw [Recv.heard_done hreach hr i, List.map_map, List.map_map]
    rfl

/-- The receiver ends with what receiving its frames makes of the destination. -/
theorem frames_received (ht : fs0.DirTree x.root) (h0 : Recv.Unshared fs0) :
    Recv.shows s.rcv.sh.fs x.root = Recv.receive (Recv.shows fs0 x.root) (s.rcv.frames x.receiver) := by
  have hU := heard_unique hv hf hp h hn hs
  have ht : fs0.DirTree x.receiver.root := ht
  obtain ⟨st', hr⟩ := receiver_ok hv h.any hs
  exact funext (Recv.shows_received ht h0 (receiver_reachable h.any) hU hr)

/-- Receiving its frames is putting the items sent there. -/
theorem receive_frames (before : List Name → Option Leaf) :
    Recv.receive before (s.rcv.frames x.receiver) = arrive content before (x.sender.kept s.snd.have_) := by
  rw [Recv.receive, arrive]
  exact Tree.foldl_place_perm (frames_planted hv hf h hs) (Recv.frames_nodup (receiver_reachable h.any) (heard_unique hv hf hp h hn hs))

end Acknowledged

/-! ## The files held back -/

/-- Every file of the list that the destination takes for held, by its size and mtime, holds what the source does. -/
def QuickCheck (items : List Item) (content : Item → Bytes) (root : Nat) (fs : Fs) : Prop :=
  ∀ item ∈ items, item.entry.kind = .file → Recv.Holds fs root item.entry →
    Recv.shows fs root (landing item) = some (.file (parcel content item).payload)

/-- Where the quick check is sound, putting only the items sent there leaves what putting all of them there does. -/
theorem arrive_kept (hv : Visited x.items) (hp : (x.items.map landing).Nodup) (hq : QuickCheck x.items content x.root fs0)
    (h : Reachable x fs0 s) :
    arrive content (Recv.shows fs0 x.root) (x.sender.kept s.snd.have_) = arrive content (Recv.shows fs0 x.root) x.items := by
  refine Tree.foldl_place_sublist ((keepUnskipped_sublist x.items s.snd.have_).map _) (planted_nodup hp) ?_
  intro y hy
  obtain ⟨item, hitem, rfl⟩ := List.mem_map.1 hy
  rcases kept_or_held hv h hitem with hkept | ⟨hk, hheld⟩
  · exact .inl (List.mem_map_of_mem hkept)
  · right
    have hshow := hq item hitem hk hheld
    obtain ⟨r, hres, -⟩ := Recv.resolve_of_shows hshow
    refine ⟨.file (parcel content item).payload, by simp [planted, hk], hshow, fun p hpre => ?_⟩
    by_cases heq : p = landing item
    · rw [heq, hshow]
      rfl
    · rw [Recv.dir_of_way hres hpre heq]
      rfl

/-- An acknowledged session that sends these items, over any flows, takes the destination from `fs` to `fs'`. -/
def Acked (items : List Item) (content : Item → Bytes) (root : Nat) (fs fs' : Fs) : Prop :=
  ∃ (x : Setup) (s : State) (st : Stats), x.items = items ∧ x.root = root ∧ 1 ≤ x.flows ∧
    Reach (step x) (Steady content) (.init x fs) s ∧ Undrawn x s ∧ s.snd.main = .returned (.ok st) ∧ s.rcv.sh.fs = fs'

/-- What a session needs of its destination. -/
structure Ready (items : List Item) (content : Item → Bytes) (root : Nat) (fs : Fs) : Prop where
  tree : fs.DirTree root
  unshared : Recv.Unshared fs
  quick : QuickCheck items content root fs

/-- An acknowledged session puts the items into the destination and leaves it ready for the next one. -/
theorem Acked.ready {root : Nat} {fs fs' : Fs} (hv : Visited items) (hp : (items.map landing).Nodup)
    (hr : Ready items content root fs) (h : Acked items content root fs fs') :
    Recv.shows fs' root = arrive content (Recv.shows fs root) items ∧ Ready items content root fs' := by
  obtain ⟨x, s, st, rfl, rfl, hf, hreach, hn, hs, rfl⟩ := h
  have hU := heard_unique hv hf hp hreach hn hs
  have hrcv := receiver_reachable hreach.any
  have hmirror : Recv.shows s.rcv.sh.fs x.root = arrive content (Recv.shows fs x.root) x.items := by
    rw [frames_received hv hf hp hreach hn hs hr.tree hr.unshared, receive_frames hv hf hp hreach hn hs,
      arrive_kept hv hp hr.quick hreach.any]
  have ht : fs.DirTree x.receiver.root := hr.tree
  refine ⟨hmirror, ?_, ?_, ?_⟩
  · exact (Recv.known ht hrcv (Recv.unique_disk ht hrcv hU).1).tree
  · exact Recv.unshared_kept ht hr.unshared hrcv hU
  · intro item hitem hk _
    rw [hmirror]
    refine Tree.foldl_place_value (planted_nodup hp) ?_
    refine List.mem_map.2 ⟨item, hitem, ?_⟩
    simp [planted, hk]

instance (items : List Item) (content : Item → Bytes) (root : Nat) (fs : Fs) : Decidable (QuickCheck items content root fs) := by
  unfold QuickCheck
  infer_instance

/-- The file the destination has, and one it lacks. -/
def five (item : Item) : Bytes := if item.entry.path.bytes = [116] then [5] else [9]

theorem agreeing_steady : ∃ s, Reach (step pair) (Steady five) (.init pair hasT) s ∧ Undrawn pair s ∧
    s.snd.main = .returned (.ok ⟨2, 1, 1, 1⟩) ∧ Recv.shows s.rcv.sh.fs 0 [[117]] = some (.file [9]) := by
  have hrun : ((runIf (step pair) (fun s a s' => decide (Steady five s a s')) (.init pair hasT) agreeing).any fun s =>
      decide (Undrawn pair s ∧ s.snd.main = .returned (.ok ⟨2, 1, 1, 1⟩) ∧
        Recv.shows s.rcv.sh.fs 0 [[117]] = some (.file [9]))) = true := by decide +kernel
  obtain ⟨s, hs, hv⟩ := (Option.any_eq_true _ _).1 hrun
  exact ⟨s, .of_runIf (fun _ _ _ h => of_decide_eq_true h) hs, of_decide_eq_true hv⟩

end Thunderflash.Session
