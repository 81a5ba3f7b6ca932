/-
What a session has brought at any moment, wherever it stands and whatever has failed: each flow has completed a
first part of its lane's share, and every path of the destination shows what it did or what its item holds.
-/
import Thunderflash.Session.Live
import Thunderflash.Session.Delivered
import Thunderflash.Recv.Midway

namespace Thunderflash.Send

open Codec Lts

variable {job : Job} {c : Choice} {s s' : State} {ok : Lane → Act → Lane → Prop} {content : Item → Bytes}

/-! ## The sender -/

/-- No lane has been spawned, or each has come to where it is on its share of a list that is out. -/
inductive Underway (job : Job) (ok : Lane → Act → Lane → Prop) (s : State) : Prop
  | before : s.spawned = false → (∀ i, (s.lane i).wrote = []) → s.wrote <+: manifest job.items → s.main ≠ .pairing →
      Underway job ok s
  | dealt : s.wrote = manifest job.items → (∀ todo, s.main ≠ .offering todo) → s.main ≠ .awaiting →
      (∀ i, Reach (step job.cfg) ok (.init job.cfg (job.share s.have_ i)) (s.lane i)) → Underway job ok s

/-- A thread that goes on leaves the lanes where they are. -/
theorem Underway.goes (h : Underway job ok s) (hs : s'.spawned = s.spawned) (hl : s'.lane = s.lane)
    (hw : s'.wrote = s.wrote) (hh : s'.have_ = s.have_)
    (hm : s'.main = s.main ∨ (∀ todo, s'.main ≠ .offering todo) ∧ s'.main ≠ .awaiting ∧ s'.main ≠ .pairing) :
    Underway job ok s' := by
  cases h with
  | before h1 h2 h3 h4 =>
    refine .before (hs.trans h1) (fun i => by rw [hl]; exact h2 i) (by rw [hw]; exact h3) ?_
    rcases hm with hm | hm
    · rw [hm]; exact h4
    · exact hm.2.2
  | dealt h1 h2 h3 h4 =>
    refine .dealt (hw.trans h1) ?_ ?_ (fun i => by rw [hl, hh]; exact h4 i)
    · rcases hm with hm | hm
      · rw [hm]; exact h2
      · exact hm.1
    · rcases hm with hm | hm
      · rw [hm]; exact h3
      · exact hm.2.1

theorem Underway.mainStep (hok : SessionOk job s s.main) (hok' : SessionOk job s' s'.main) (h : Underway job ok s)
    (hs : mainStep job c s = some s') : Underway job ok s' := by
  unfold Send.mainStep at hs
  split at hs
  case h_1 hm =>
    rw [hm] at hok
    cases hs
    exact .before hok.2.idle hok.2.wrote ⟨_, hok.1⟩ (by simp [State.goto])
  case h_2 hm =>
    rw [hm] at hok
    split at hs
    · cases hs
      exact h.goes rfl rfl rfl rfl (.inr (by simp [State.fail, State.goto]))
    · split at hs <;> cases hs
      exact .before hok.2.idle hok.2.wrote ⟨_, hok'.1⟩ (by simp)
  case h_3 hm =>
    rw [hm] at hok
    split at hs
    · cases hs
      exact h.goes rfl rfl rfl rfl (.inr (by simp [State.fail, State.goto]))
    · split at hs <;> cases hs
      exact h.goes rfl rfl rfl rfl (.inr (by simp [State.fail, State.goto]))
    · rename_i have_ rest _ _
      cases hs
      refine .dealt hok.1 ?_ ?_ fun i => .init
      · intro todo
        show (if job.flows = 1 then MainPc.running else .pairing) ≠ _
        split <;> simp
      · show (if job.flows = 1 then MainPc.running else .pairing) ≠ _
        split <;> simp
  case h_4 hm =>
    cases h with
    | before _ _ _ h4 => exact absurd hm h4
    | dealt h1 _ _ h4 =>
      split at hs <;> cases hs
      · exact .dealt h1 (by simp [State.fail, State.goto]) (by simp [State.fail, State.goto]) h4
      · exact .dealt h1 (by simp) (by simp) h4
  case h_5 =>
    split at hs
    · split at hs <;> cases hs <;> exact h.goes rfl rfl rfl rfl (.inr (by simp [State.fail, State.goto]))
    · cases hs
  case h_6 =>
    split at hs
    · cases hs
      exact h.goes rfl rfl rfl rfl (.inr (by simp [State.fail, State.goto]))
    · split at hs <;> cases hs
      exact h.goes rfl rfl rfl rfl (.inr (by simp [State.fail, State.goto]))
    · cases hs
      exact h.goes rfl rfl rfl rfl (.inr (by simp))
  case h_7 => cases hs

theorem underway_inv (h : Reach (sessionStep job) (OnLanes ok) (.init job) s) : Underway job ok s := by
  refine h.invariant (I := Underway job ok) ?_ ?_
  · obtain ⟨r, hr⟩ := Lane.init_eq job.cfg []
    refine .before rfl (fun i => ?_) List.nil_prefix (by simp [State.init])
    show (Lane.init job.cfg []).wrote = []
    rw [hr]
  intro s a s' hr ih hst ho
  cases a with
  | main c => exact ih.mainStep (session_inv hr) (session_inv (hr.step hst ho)) hst
  | lane i b =>
    obtain ⟨hsp, -, ln, hs, rfl⟩ := lane_some hst
    have hok := ho i b rfl
    rw [show ({ s with lane := Function.update s.lane i ln } : State).lane i = ln from Function.update_self ..] at hok
    cases ih with
    | before h1 =>
      rw [h1] at hsp
      cases hsp
    | dealt h1 h2 h3 h4 =>
      refine .dealt h1 h2 h3 fun k => ?_
      show Reach _ _ _ (Function.update s.lane i ln k)
      by_cases hk : k = i
      · subst hk
        rw [Function.update_self]
        exact (h4 k).step hs hok
      · rw [Function.update_of_ne hk]
        exact h4 k
  | hear bytes =>
    rw [show sessionStep job s (.hear bytes) = if s.eof then none else some { s with heard := s.heard ++ bytes } from rfl] at hst
    split at hst <;> cases hst
    exact ih.goes rfl rfl rfl rfl (.inl rfl)
  | cut =>
    cases hst
    exact ih.goes rfl rfl rfl rfl (.inl rfl)

end Thunderflash.Send

namespace Thunderflash.Recv

open Codec Posix Lts

variable {cfg : Cfg} {s : State} {fs0 : Fs}

/-! ## The receiver -/

/-- Before a flow reads anything the list has been read to its end. -/
theorem listing_first (h : Reachable cfg fs0 s) : (∀ i, (s.flow i).log.got = []) ∨
    ∃ es, (∀ e ∈ es, e.Framed) ∧ s.got = encodings es ++ Entry.terminator := by
  refine h.invariant (I := fun s => (∀ i, (s.flow i).log.got = []) ∨
    ∃ es, (∀ e ∈ es, e.Framed) ∧ s.got = encodings es ++ Entry.terminator) (.inl fun i => rfl) ?_
  intro s a s' hr ih hst _
  have hr' : Reachable cfg fs0 s' := .step hr hst trivial
  have hearly : s'.main.early → (∀ i, (s'.flow i).log.got = []) := by
    intro hm i
    obtain ⟨wire, eof, he⟩ := ((phase_ok hr').early hm).flow i
    rw [he]
    rfl
  have hwhole : Answered s'.bits s'.stats s'.got → ∃ es, (∀ e ∈ es, e.Framed) ∧ s'.got = encodings es ++ Entry.terminator :=
    fun ⟨es, htal, hgot⟩ => ⟨es, htal.framed, hgot⟩
  have htally := tally_inv hr'
  cases hm : s'.main with
  | openRoot | manifest | chainRoot | chain | stat | answer | pairing => exact .inl (hearly (by rw [hm]; trivial))
  | running | flushing | acking =>
    rw [hm] at htally
    exact .inr (hwhole htally.1)
  | returned r =>
    cases r with
    | ok st =>
      rw [hm] at htally
      exact .inr (hwhole htally.1)
    | error e =>
      -- a session that fails has read nothing since
      have hgot : s'.got = s.got := by
        rcases step_told hst with hu | ⟨c, -, hs⟩
        · exact hu.got
        · exact (mainStep_failed hs hm).2.2.1
      have hlogs : ∀ i, (s'.flow i).log = (s.flow i).log := by
        rcases step_cases hst with ⟨i, c, sh', fl', hl, -, rfl⟩ | ⟨ha, -⟩
        · have hrun : s.main = .running := hl.1
          rw [show (s.put i (sh', fl')).main = s.main from rfl, hrun] at hm
          cases hm
        · exact ha.log
      simp only [hgot, hlogs]
      exact ih

end Thunderflash.Recv

namespace Thunderflash.Session

open Codec Posix Lts

open Send (Item Sent parcel)

variable {x : Setup} {fs0 : Fs} {s : State} {content : Item → Bytes} {i : Nat} {p : List Name}

/-! ## A flow and its lane -/

/-- Once the list has been read to its end, what a flow has been fed is a first part of the frames of its lane's share. -/
theorem fed_part (hv : Visited x.items) (h : Reach (step x) (Steady content) (.init x fs0) s) {es : List Entry}
    (hes : ∀ e ∈ es, e.Framed) (hgot : s.rcv.got = Recv.encodings es ++ Entry.terminator) (i : Nat) :
    (s.rcv.flow i).log.got ++ (s.rcv.flow i).wire <+:
      Send.encodeAll x.sender.cfg ((x.sender.share s.snd.have_ i).map (parcel content)) ++ [0] := by
  have hpart := ((linked_inv h.any).wired.part i).trans (List.take_prefix ..)
  unfold Recv.State.stream Send.State.sent at hpart
  cases Send.underway_inv (sender_steady h) with
  | before _ hnil hw _ =>
    have hend : (s.rcv.flow i).log.got ++ (s.rcv.flow i).wire <+: [] := by
      rw [hnil i, List.append_nil] at hpart
      by_cases hi : i = 0
      · -- a list read to its end leaves nothing of what was written
        rw [if_pos hi, if_pos hi, hgot] at hpart
        have hall := hpart.trans hw
        rw [show Send.manifest x.sender.items = Send.manifest x.items from rfl, sender_manifest hv] at hall
        have hsame : es = x.items.map Item.entry := by
          refine @Recv.encodings_unique es (x.items.map Item.entry) [] hes hv.walked.framed ?_
          rw [List.append_nil]
          exact (List.prefix_append ..).trans hall
        rw [hsame] at hall
        have hlen := hall.length_le
        rw [List.length_append] at hlen
        rw [List.length_eq_zero_iff.1 (by omega : ((s.rcv.flow i).log.got ++ (s.rcv.flow i).wire).length = 0)]
      · rwa [if_neg hi, if_neg hi] at hpart
    exact hend.trans List.nil_prefix
  | dealt hw _ _ hlanes =>
    refine List.IsPrefix.trans ?_ (Send.lane_part (hlanes i))
    by_cases hi : i = 0
    · have hsame := listing_whole hv h.any hw hes hgot
      rw [if_pos hi, if_pos hi, hw, show Send.manifest x.sender.items = Send.manifest x.items from rfl, sender_manifest hv, hgot,
        hsame] at hpart
      exact (List.prefix_append_right_inj _).1 hpart
    · rwa [if_neg hi, if_neg hi] at hpart

/-- What a flow has read is a first part of the frames of its lane's share. -/
theorem got_part (hv : Visited x.items) (h : Reach (step x) (Steady content) (.init x fs0) s) (i : Nat) :
    (s.rcv.flow i).log.got <+: Send.encodeAll x.sender.cfg ((x.sender.share s.snd.have_ i).map (parcel content)) ++ [0] := by
  rcases Recv.listing_first (receiver_reachable h.any) with hidle | ⟨es, hes, hgot⟩
  · rw [hidle i]
    exact List.nil_prefix
  · exact (List.prefix_append ..).trans (fed_part hv h hes hgot i)

/-- The sources hold what the walk found. -/
def Holding (content : Item → Bytes) (items : List Item) : Prop :=
  ∀ item ∈ items, Send.payloadLen item.entry ≤ (content item).length

instance (content : Item → Bytes) (items : List Item) : Decidable (Holding content items) := by
  unfold Holding
  infer_instance

/-- What the receiver hears of an item. -/
def spoken (item : Item) : Entry × List Name := (item.entry, landing item)

theorem Same.spoken {item : Item} {fr : Recv.Frame} (hs : Same (parcel content item) fr)
    (hsane : sanitize fr.entry.path.bytes = .ok fr.comps) : (fr.entry, fr.comps) = spoken item := by
  have he : fr.entry = item.entry := hs.entry
  rw [he] at hsane
  rw [Session.spoken, landing, hsane, he]

/-- What a flow has completed it has heard as the items. -/
theorem ended_spoken (h : Reachable x fs0 s) {pre : List Item}
    (hsame : List.Forall₂ Same (pre.map (parcel content)) (s.rcv.flow i).log.done) :
    (s.rcv.flow i).log.ended = pre.map spoken := by
  have hlog := (Recv.flow_inv (receiver_reachable h) i).net.log
  have hsane : ∀ fr ∈ (s.rcv.flow i).log.done, sanitize fr.entry.path.bytes = .ok fr.comps := by
    intro fr hfr
    have hmem : (fr.entry, fr.comps) ∈ (s.rcv.flow i).log.done.map fun fr => (fr.entry, fr.comps) := List.mem_map_of_mem hfr
    exact hlog.sane (fr.entry, fr.comps) (hlog.heard.subset hmem)
  rw [Recv.Log.ended]
  rw [List.forall₂_map_left_iff] at hsame
  generalize (s.rcv.flow i).log.done = done at hsame hsane ⊢
  revert hsane
  induction hsame with
  | nil => exact fun _ => rfl
  | @cons item fr items frs hit _ ih =>
    intro hsane
    rw [List.map_cons, List.map_cons, ih fun y hy => hsane y (by simp [hy]), hit.spoken (hsane fr (by simp))]

/-- The entry that comes next in the stream of these items is the first one's. -/
theorem next_spoken {rest : List Item} {y : Entry × List Name} (hw : Send.Walked rest) (hframed : y.1.Framed)
    (hsane : sanitize y.1.path.bytes = .ok y.2)
    (hp : y.1.encode <+: Send.encodeAll x.sender.cfg (rest.map (parcel content)) ++ [0]) :
    ∃ item todo, rest = item :: todo ∧ y = spoken item := by
  obtain ⟨t, ht⟩ := hp
  have hdec := Entry.decode_encode hframed t
  rw [ht] at hdec
  cases rest with
  | nil =>
    have hend : Entry.decode (Send.encodeAll x.sender.cfg [] ++ [0]) = .ok none [] := Entry.decode_terminator []
    rw [List.map_nil, hend] at hdec
    cases hdec
  | cons item todo =>
    obtain ⟨hh, hfr⟩ := hw item (by simp)
    have hall : Send.encodeAll x.sender.cfg ((item :: todo).map (parcel content)) ++ [0] = item.entry.encode ++
        ((parcel content item).payload ++ (Send.trailerOf x.sender.cfg item.entry (parcel content item).payload ++
          (Send.encodeAll x.sender.cfg (todo.map (parcel content)) ++ [0]))) := by
      show (parcel content item).encode x.sender.cfg ++ Send.encodeAll x.sender.cfg (todo.map (parcel content)) ++ [0] = _
      rw [Send.Sent.encode, show (parcel content item).item = item from rfl, hh]
      simp
    rw [hall, Entry.decode_encode hfr] at hdec
    injection hdec with he
    have he : item.entry = y.1 := Option.some.inj he
    refine ⟨item, todo, rfl, ?_⟩
    rw [← he] at hsane
    rw [spoken, landing, hsane, he]

/-- What is left of a share comes from the walk. -/
theorem share_walked (hv : Visited x.items) (hf : 1 ≤ x.flows) {have_ : List Bool} {pre rest : List Item}
    (hs : x.sender.share have_ i = pre ++ rest) : Send.Walked rest := fun item hi =>
  hv.walked item (mem_share (show 0 < x.sender.flows from hf) (i := i) (by rw [hs]; simp [hi]))

section Flows

variable (hv : Visited x.items) (hf : 1 ≤ x.flows) (hc : Holding content x.items)
  (h : Reach (step x) (Steady content) (.init x fs0) s)

include hv hf hc

theorem parcel_whole {item : Item} (hi : item ∈ x.sender.share s.snd.have_ i) :
    (parcel content item).Whole ∧ item.header = item.entry.encode ∧ item.entry.Framed := by
  have hmem := mem_share (show 0 < x.sender.flows from hf) hi
  exact ⟨by rw [Send.Sent.Whole, parcel, List.length_take]; exact Nat.min_eq_left (hc item hmem), hv.walked item hmem⟩

include h

/-- Whole frames that begin what a flow has read are its lane's first items, each with what its source holds. -/
theorem frames_first {done : List Recv.Frame} {w : Bytes} (hw : ∀ fr ∈ done, fr.Whole x.receiver)
    (hg : Recv.encodeAll done ++ w <+: (s.rcv.flow i).log.got) : ∃ pre rest, x.sender.share s.snd.have_ i = pre ++ rest ∧
      List.Forall₂ Same (pre.map (parcel content)) done ∧
      w <+: Send.encodeAll x.sender.cfg (rest.map (parcel content)) ++ [0] := by
  obtain ⟨t, ht⟩ := hg.trans (got_part hv h i)
  rw [List.append_assoc] at ht
  obtain ⟨pre, rest, hall, hsame, hrest⟩ := @sent_rest x.sender.cfg x.receiver ⟨rfl, rfl⟩ _ _ _ (fun fr hfr => by
    obtain ⟨item, hitem, rfl⟩ := List.mem_map.1 hfr
    exact parcel_whole hv hf hc hitem) hw ht
  obtain ⟨pre, rest, hshare, rfl, rfl⟩ := List.map_eq_append_iff.1 hall
  exact ⟨pre, rest, hshare, hsame, ⟨t, hrest⟩⟩

theorem heard_part (i : Nat) : (s.rcv.flow i).log.heard <+: (x.sender.share s.snd.have_ i).map spoken := by
  have hrcv := receiver_reachable h.any
  have hlog := (Recv.flow_inv hrcv i).net.log
  cases Recv.heard_inv hrcv i with
  | all hall =>
    obtain ⟨tail, htail⟩ := hlog.got
    obtain ⟨pre, rest, hshare, hsame, -⟩ := frames_first (i := i) hv hf hc h hlog.whole (w := [])
      ⟨tail, by rw [List.append_nil, htail]⟩
    rw [hall, ended_spoken h.any hsame, hshare, List.map_append]
    exact List.prefix_append ..
  | next y hy hframed hgot =>
    obtain ⟨pre, rest, hshare, hsame, hp⟩ := frames_first hv hf hc h hlog.whole hgot
    obtain ⟨item, todo, rfl, rfl⟩ := next_spoken (share_walked hv hf hshare) hframed (hlog.sane y (by rw [hy]; simp)) hp
    exact ⟨todo.map spoken, by rw [hy, ended_spoken h.any hsame, hshare]; simp⟩

/-- An entry heard is an item's. -/
theorem spoken_item {y : Entry × List Name} (hy : y ∈ (s.rcv.flow i).log.heard) : ∃ item ∈ x.items, spoken item = y := by
  obtain ⟨item, hitem, rfl⟩ := List.mem_map.1 ((heard_part hv hf hc h i).subset hy)
  exact ⟨item, mem_share (show 0 < x.sender.flows from hf) hitem, rfl⟩

end Flows

/-- Part of a session that later succeeds: its first file is being received. -/
def stopped : List Act := agreeing.take 50

theorem stopped_steady : ∃ s, Reach (step pair) (Steady five) (.init pair hasT) s ∧ Undrawn pair s ∧
    (s.rcv.flow 0).log.heard.length = 1 ∧ (s.rcv.flow 0).log.done = [] := by
  have hrun : ((runIf (step pair) (fun s a s' => decide (Steady five s a s')) (.init pair hasT) stopped).any fun s =>
      decide (Undrawn pair s ∧ (s.rcv.flow 0).log.heard.length = 1 ∧ (s.rcv.flow 0).log.done = [])) = true := by decide +kernel
  obtain ⟨s, hs, hv⟩ := (Option.any_eq_true _ _).1 hrun
  exact ⟨s, .of_runIf (fun _ _ _ h => of_decide_eq_true h) hs, of_decide_eq_true hv⟩

theorem shares_flat (hf : 1 ≤ x.flows) (have_ : List Bool) :
    ((List.range x.flows).flatMap fun i => (x.sender.share have_ i).map landing).Perm ((x.sender.kept have_).map landing) := by
  obtain ⟨hlen, hperm⟩ := deal_perm hf (x.sender.kept have_)
  have hall : (List.range x.flows).map (x.sender.share have_) = Send.deal x.flows (x.sender.kept have_) := by
    refine List.ext_getElem (by simp [hlen]) fun i h1 h2 => ?_
    rw [List.getElem_map, List.getElem_range, Send.Job.share, List.getD_eq_getElem?_getD]
    exact (List.getElem?_eq_getElem h2).symm ▸ rfl
  rw [← List.flatMap_map (f := x.sender.share have_) (g := fun l => l.map landing), hall, List.flatMap_def, ← List.map_flatten]
  exact hperm.map _

/-- What path `p` of the destination shows, and on whose account. -/
inductive Brought (x : Setup) (content : Item → Bytes) (fs0 : Fs) (s : State) (p : List Name) : Prop
  | old : Recv.shows s.rcv.sh.fs x.root p = Recv.shows fs0 x.root p → Brought x content fs0 s p
  /-- A file or link that has come, with all that its source holds. -/
  | item {item : Item} : item ∈ x.items → item.entry.kind ≠ .dir → planted content item = (p, Recv.shows s.rcv.sh.fs x.root p) →
      Brought x content fs0 s p
  /-- A directory of the list, or on the way to an item. -/
  | dir {item : Item} : item ∈ x.items → p <+: landing item → (p = landing item → item.entry.kind = .dir) →
      Recv.shows s.rcv.sh.fs x.root p = some .dir → Brought x content fs0 s p
  /-- A scratch file, under a name that tells its item's. -/
  | scratch {item : Item} {draw : UInt32} {b : Bytes} : item ∈ x.items → item.entry.kind = .file →
      p = (landing item).dropLast ++ [Recv.scratchName ((landing item).getLastD []) draw] →
      Recv.shows s.rcv.sh.fs x.root p = some (.file b) → Brought x content fs0 s p
  /-- A link about to be made. -/
  | missing {item : Item} : item ∈ x.items → item.entry.kind = .symlink → landing item = p →
      Recv.shows s.rcv.sh.fs x.root p = none → Brought x content fs0 s p
  /-- A file whose name is too long for a scratch name. -/
  | inPlace {item : Item} : item ∈ x.items → NAME_MAX < (p.getLastD []).length + 21 → landing item = p → Brought x content fs0 s p

section Moment

variable (hv : Visited x.items) (hf : 1 ≤ x.flows) (hc : Holding content x.items) (hp : (x.items.map landing).Nodup)
  (h : Reach (step x) (Steady content) (.init x fs0) s) (hn : Undrawn x s)

include hv hf hc hp h hn

theorem spoken_unique : Recv.Unique s.rcv := by
  have hrcv := receiver_reachable h.any
  have hkept : ((x.sender.kept s.snd.have_).map landing).Nodup :=
    hp.sublist ((keepUnskipped_sublist x.items s.snd.have_).map landing)
  have hshares : Distinct fun i => (x.sender.share s.snd.have_ i).map landing := by
    refine .of_range (fun i hi => ?_) ((shares_flat hf s.snd.have_).nodup_iff.2 hkept)
    have hlen := (deal_perm hf (x.sender.kept s.snd.have_)).1
    rw [Send.Job.share, List.getD_eq_getElem?_getD, List.getElem?_eq_none (by rw [show x.sender.flows = x.flows from rfl]; omega)]
    rfl
  refine ⟨hshares.of_sublist fun i => ?_, Recv.names_of_reach hrcv ?_⟩
  · have hsub := ((heard_part hv hf hc h i).sublist).map Prod.snd
    rwa [List.map_map] at hsub
  · intro i hi k hk t ht y hy
    obtain ⟨item, hitem, rfl⟩ := spoken_item hv hf hc h hy
    exact hn i hi t ht item hitem

end Moment

end Thunderflash.Session
