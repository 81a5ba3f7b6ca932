/-
The manifest phase end to end: the sender's headers, the receiver's look-ups through its parent
cache, the bitmap, and the filter. The sender keeps its list in order, without the files that the
destination holds, and has read the whole reply.
-/
import Thunderflash.Recv.Manifest
import Thunderflash.Recv.Atomic
import Thunderflash.Send.Session

namespace Thunderflash.Recv

open Codec Posix Lts

variable {cfg : Cfg} {c : Choice} {fs0 fs : Fs} {s s' : State} {e : Entry}

/-! ## Reading the list -/

/-- Two readings of one stream agree as far as both go. -/
theorem encodings_split : ∀ {es es' : List Entry} {w later : Bytes}, (∀ e ∈ es, e.Framed) → (∀ e ∈ es', e.Framed) →
    encodings es ++ w = encodings es' ++ (Entry.terminator ++ later) →
    ∃ rest, es' = es ++ rest ∧ w = encodings rest ++ (Entry.terminator ++ later)
  | [], es', w, later, _, _, h => ⟨es', rfl, h⟩
  | e :: es, es', w, later, hf, hf', h => by
    have hd : Entry.decode (encodings (e :: es) ++ w) = .ok (some e) (encodings es ++ w) := by
      show Entry.decode (e.encode ++ encodings es ++ w) = _
      rw [List.append_assoc]
      exact Entry.decode_encode (hf e (by simp)) _
    rw [h] at hd
    cases es' with
    | nil =>
      rw [show Entry.decode (encodings [] ++ (Entry.terminator ++ later)) = .ok none later from Entry.decode_terminator _] at hd
      cases hd
    | cons e' es' =>
      have hd' : Entry.decode (encodings (e' :: es') ++ (Entry.terminator ++ later)) =
          .ok (some e') (encodings es' ++ (Entry.terminator ++ later)) := by
        show Entry.decode (e'.encode ++ encodings es' ++ _) = _
        rw [List.append_assoc]
        exact Entry.decode_encode (hf' e' (by simp)) _
      rw [hd'] at hd
      injection hd with he hrest
      cases he
      obtain ⟨rest, rfl, hw⟩ := encodings_split (fun x hx => hf x (by simp [hx])) (fun x hx => hf' x (by simp [hx])) hrest.symm
      exact ⟨rest, rfl, hw⟩

/-- A list read to its terminator is the list that was sent. -/
theorem encodings_unique {es es' : List Entry} {later : Bytes} (hf : ∀ e ∈ es, e.Framed) (hf' : ∀ e ∈ es', e.Framed)
    (hg : encodings es ++ Entry.terminator <+: encodings es' ++ (Entry.terminator ++ later)) : es = es' := by
  obtain ⟨t, ht⟩ := hg
  rw [List.append_assoc] at ht
  obtain ⟨rest, rfl, hw⟩ := encodings_split hf hf' ht
  cases rest with
  | nil => rw [List.append_nil]
  | cons e rest =>
    have hd : Entry.decode (Entry.terminator ++ t) = .ok none t := Entry.decode_terminator t
    have he : Entry.decode (encodings (e :: rest) ++ (Entry.terminator ++ later)) = .ok (some e) (encodings rest ++ (Entry.terminator ++ later)) := by
      show Entry.decode (e.encode ++ encodings rest ++ _) = _
      rw [List.append_assoc]
      exact Entry.decode_encode (hf' e (by simp)) _
    rw [hw, he] at hd
    cases hd

theorem Listed.unique {bits : List Bool} {got later : Bytes} {es' : List Entry} (h : Listed cfg fs0 bits got)
    (hf : ∀ e ∈ es', e.Framed) (hg : got <+: encodings es' ++ (Entry.terminator ++ later)) : bits = answers fs0 cfg.root es' := by
  obtain ⟨es, hes, rfl⟩ := h
  rw [← encodings_unique hes.framed hf hg]
  exact hes.bits

/-! ## Coming to the answer -/

/-- The manifest is being read or looked up. -/
def MainPc.listing : MainPc → Prop
  | .openRoot | .manifest | .chainRoot .. | .chain .. | .stat .. | .answer => True
  | _ => False

/-- The bitmap has been written. -/
def MainPc.answered : MainPc → Prop
  | .pairing | .running => True
  | _ => False

/-- What the thread has to do before it reads on. -/
def MainPc.steps : MainPc → Nat
  | .openRoot => 1
  | .stat .. => 1
  | .chain _ _ _ _ _ todo => 2 + todo.length
  | .chainRoot _ parents _ => 2 + parents.length
  | _ => 0

theorem MainPc.listing.early {pc : MainPc} (h : pc.listing) : pc.early := by
  cases pc <;> first | exact h.elim | trivial

def plainly : Choice := ⟨none, 0, 0, 0⟩

theorem held_listing (s : State) (e : Entry) : (s.held e).main.listing := by
  unfold State.held
  split
  · trivial
  · split
    · split <;> trivial
    · trivial

/-- The answer is out, or the thread is nearer to it: less is left to read, or less to look up. -/
def Nearer (stream : Bytes) (s s' : State) : Prop :=
  s'.got ++ (s'.flow 0).wire = stream ∧ (s'.main.answered ∨ (s'.main.listing ∧
    ((s'.flow 0).wire.length < (s.flow 0).wire.length ∨
      ((s'.flow 0).wire = (s.flow 0).wire ∧ s'.main.steps < s.main.steps))))

/-- What is decoded next while the whole list is there. -/
theorem listing_decode {es : List Entry} {later : Bytes} (hf : ∀ e ∈ es, e.Framed) (hi : ManifestInv cfg fs0 s)
    (hm : s.main = .manifest) (hw : s.got ++ (s.flow 0).wire = encodings es ++ (Entry.terminator ++ later)) :
    ∃ e a rest, Entry.decode (s.flow 0).wire = .ok e rest ∧ (s.flow 0).wire = a ++ rest ∧ a ≠ [] := by
  have hph := hi.phase
  rw [hm] at hph
  obtain ⟨⟨seen, hseen, hgot⟩, -⟩ := hph
  rw [hgot] at hw
  obtain ⟨rest, rfl, hwire⟩ := encodings_split hseen.framed hf hw
  cases rest with
  | nil => exact ⟨none, Entry.terminator, later, by rw [hwire]; exact Entry.decode_terminator _, hwire, by simp [Entry.terminator]⟩
  | cons e rest =>
    have hwire : (s.flow 0).wire = e.encode ++ (encodings rest ++ (Entry.terminator ++ later)) := by
      rw [hwire, ← List.append_assoc (e.encode)]
      rfl
    exact ⟨some e, e.encode, _, by rw [hwire]; exact Entry.decode_encode (hf e (by simp)) _, hwire, by simp [Entry.encode]⟩

/-- While the whole list is there, the thread goes on, nearer to the answer with every step. -/
theorem listing_step {es : List Entry} {later : Bytes} (hf : ∀ e ∈ es, e.Framed) (hi : ManifestInv cfg fs0 s) (hl : s.main.listing)
    (hw : s.got ++ (s.flow 0).wire = encodings es ++ (Entry.terminator ++ later)) :
    ∃ s', mainStep cfg plainly s = some s' ∧ Nearer (encodings es ++ (Entry.terminator ++ later)) s s' := by
  have hdec := fun hm => listing_decode hf hi hm hw
  -- a step that looks something up leaves the stream alone
  have hlook : ∀ s' : State, s'.main.listing → s'.flow = s.flow → s'.got = s.got → s'.main.steps < s.main.steps →
      Nearer (encodings es ++ (Entry.terminator ++ later)) s s' := fun s' h1 h2 h3 h4 =>
    ⟨by rw [h2, h3]; exact hw, .inr ⟨h1, .inr ⟨by rw [h2], h4⟩⟩⟩
  cases hs : mainStep cfg plainly s with
  | none =>
    exfalso
    unfold mainStep at hs
    split at hs
    case h_1 => cases hs
    case h_2 hm =>
      obtain ⟨e, a, rest, hd, -⟩ := hdec hm
      rw [hd, show plainly.fault = none from rfl] at hs
      cases e <;> cases hs
    case h_3 => split at hs <;> cases hs
    case h_4 => split at hs <;> cases hs
    case h_5 => split at hs <;> cases hs
    case h_6 => cases hs
    all_goals
      rename_i hm
      rw [hm] at hl
      exact hl.elim
  | some s' =>
    refine ⟨s', rfl, ?_⟩
    unfold mainStep at hs
    split at hs
    case h_1 hm =>
      cases hs
      refine hlook _ trivial rfl rfl ?_
      rw [hm]
      exact Nat.one_pos
    case h_2 hm =>
      obtain ⟨e, a, rest, hd, hwire, ha⟩ := hdec hm
      rw [hd, show plainly.fault = none from rfl] at hs
      obtain ⟨h1, h2⟩ := consume_stream s hwire
      have hlen := List.length_pos_of_ne_nil ha
      have hread : ∀ s' : State, s'.main.listing → s'.flow = (s.consume rest).flow → s'.got = (s.consume rest).got →
          Nearer (encodings es ++ (Entry.terminator ++ later)) s s' := by
        intro s' hl' hflow hgot
        refine ⟨?_, .inr ⟨hl', .inl ?_⟩⟩
        · rw [hflow, hgot, h1, h2, ← hw, hwire, List.append_assoc]
        · rw [hflow, h1, hwire, List.length_append]
          omega
      cases e with
      | none => cases hs; exact hread _ trivial rfl rfl
      | some e =>
        cases hs
        split
        · obtain ⟨hflow, hgot⟩ := held_keeps (s.consume rest) e
          exact hread _ (held_listing _ _) hflow hgot
        · refine hread _ ?_ rfl rfl
          show s.main.listing
          exact hl
    case h_3 e parents name hm =>
      split at hs
      · rename_i hx; cases hx
      · cases hs
        refine hlook _ trivial rfl rfl ?_
        rw [hm]
        show 1 < 2 + 0
        omega
      · cases hs
        refine hlook _ trivial rfl rfl ?_
        rw [hm]
        simp only [MainPc.steps, State.goto, List.length_cons]
        omega
    case h_4 e name dir done component todo hm =>
      have hsteps : s.main.steps = 2 + todo.length := by rw [hm]; rfl
      split at hs
      · cases hs
        refine hlook _ trivial rfl rfl ?_
        rw [hsteps]
        show 1 < 2 + 0
        omega
      · rename_i sh d next todo _
        cases hs
        refine hlook _ trivial rfl rfl ?_
        rw [hsteps]
        show 2 + todo.length < 2 + (next :: todo).length
        rw [List.length_cons]
        omega
      · cases hs
        refine hlook _ trivial rfl rfl ?_
        rw [hsteps]
        show 0 < 2 + _
        omega
    case h_5 e name dir hm =>
      split at hs <;> cases hs <;>
      · refine hlook _ trivial rfl rfl ?_
        rw [hm]
        exact Nat.one_pos
    case h_6 =>
      cases hs
      refine ⟨hw, .inl ?_⟩
      show (if cfg.flows = 1 then MainPc.running else .pairing).answered
      split <;> trivial
    all_goals
      rename_i hm
      rw [hm] at hl
      exact hl.elim

/-- The thread that runs `accept_one` comes to the answer. -/
theorem listing_answered (hn : Named fs0) {es : List Entry} {later : Bytes} (hf : ∀ e ∈ es, e.Framed) :
    ∀ {s : State}, Reach (step cfg) Unhindered (.init cfg fs0) s → s.main.listing →
      s.got ++ (s.flow 0).wire = encodings es ++ (Entry.terminator ++ later) →
      ∃ n s', run (step cfg) s (List.replicate n (.main plainly)) = some s' ∧ s'.main.answered ∧
        Reach (step cfg) Unhindered (.init cfg fs0) s' ∧ s'.got ++ (s'.flow 0).wire = encodings es ++ (Entry.terminator ++ later) := by
  intro s
  -- on the bytes left to read, and between two reads on the steps of the look-up
  induction hk : (s.flow 0).wire.length using Nat.strong_induction_on generalizing s with
  | _ k ihk =>
    induction hj : s.main.steps using Nat.strong_induction_on generalizing s with
    | _ j ihj =>
      intro hr hl hw
      obtain ⟨s', hs, hnext⟩ := listing_step hf (manifest_inv hn hr) hl hw
      have hr' : Reach (step cfg) Unhindered (.init cfg fs0) s' :=
        hr.step (show step cfg s (.main plainly) = some s' from hs) (by rintro c ⟨⟩; rfl)
      have hgo : ∀ {n s''}, run (step cfg) s' (List.replicate n (.main plainly)) = some s'' →
          run (step cfg) s (List.replicate (n + 1) (.main plainly)) = some s'' := by
        intro n s'' hrun
        rw [List.replicate_succ]
        show (mainStep cfg plainly s).bind _ = _
        rw [hs]
        exact hrun
      obtain ⟨hw', ha | ⟨hl', hlt | ⟨heq, hlt⟩⟩⟩ := hnext
      · exact ⟨1, s', hgo (n := 0) rfl, ha, hr', hw'⟩
      · obtain ⟨n, s'', hrun, ha⟩ := ihk _ (by omega) rfl hr' hl' hw'
        exact ⟨n + 1, s'', hgo hrun, ha⟩
      · obtain ⟨n, s'', hrun, ha⟩ := ihj _ (by omega) (by rw [heq]; exact hk) rfl hr' hl' hw'
        exact ⟨n + 1, s'', hgo hrun, ha⟩

/-! ## The sender's list -/

open Send (Item manifest offered keepUnskipped Walked)

instance (fs : Fs) (root : Nat) (e : Entry) : Decidable (Holds fs root e) := decidable_of_iff _ fileHeld_iff

/-- The items without the files that the destination holds. -/
def missing (fs : Fs) (root : Nat) (items : List Item) : List Item :=
  items.filter fun item => ¬ (item.entry.kind = .file ∧ Holds fs root item.entry)

variable {items : List Item}

theorem keepUnskipped_missing (root : Nat) (items : List Item) :
    (keepUnskipped items (answers fs root (items.map Item.entry))).1 = missing fs root items := by
  rw [answers, Send.keepUnskipped_answers]
  refine List.filter_congr fun item _ => ?_
  rw [Bool.eq_iff_iff]
  simp [Item.skips, Item.isFile, ← fileHeld_iff]

theorem length_answers (root : Nat) (items : List Item) : (answers fs root (items.map Item.entry)).length = offered items :=
  Send.length_answers _ items

/-- What is in the reply behind the bitmap. -/
theorem ManifestInv.reply (h : ManifestInv cfg fs0 s) : s.reply = [] ∧ (∀ st, s.main ≠ .returned (.ok st)) ∨
    ∃ tail, Listed cfg fs0 s.bits s.got ∧ s.reply = encodeBitmap s.bits ++ tail ∧ (tail = [ACK] ∨ tail = []) ∧
      (tail = [ACK] ↔ ∃ st, s.main = .returned (.ok st)) := by
  have hph := h.phase
  cases hm : s.main with
  | returned r =>
    rw [hm] at hph
    cases r with
    | ok st => exact .inr ⟨[ACK], hph.1, hph.2, .inl rfl, fun _ => ⟨st, rfl⟩, fun _ => rfl⟩
    | error e =>
      rcases hph with hr | ⟨hl, hr⟩
      · exact .inl ⟨hr, fun st hx => by cases hx⟩
      · exact .inr ⟨[], hl, by rw [hr, List.append_nil], .inr rfl, fun hx => (by cases hx), fun ⟨st, hx⟩ => by cases hx⟩
  | pairing | running | flushing | acking =>
    rw [hm] at hph
    exact .inr ⟨[], hph.1, by rw [hph.2, List.append_nil], .inr rfl, fun hx => (by cases hx), fun ⟨st, hx⟩ => by cases hx⟩
  | _ =>
    rw [hm] at hph
    exact .inl ⟨hph.2, fun st hx => by cases hx⟩

/-- The two ends agree about the manifest: whenever the sender can read its answer it keeps exactly
the items whose file the destination lacks, in order, and nothing follows in the reply but the
acknowledgement; and once the list has arrived the answer comes. -/
theorem manifest_agrees (hn : Named fs0) (hw : Walked items) (h : Reach (step cfg) Unhindered (.init cfg fs0) s) :
    (∀ later have_ rest, s.got <+: manifest items ++ later → readBitmap (offered items) s.reply = .ok have_ rest →
      (keepUnskipped items have_).1 = missing fs0 cfg.root items ∧ (rest = [ACK] ∨ rest = []) ∧
        (rest = [ACK] ↔ ∃ st, s.main = .returned (.ok st))) ∧
    ∀ later, s.main.listing → s.got ++ (s.flow 0).wire = manifest items ++ later →
      ∃ n s' have_, run (step cfg) s (List.replicate n (.main plainly)) = some s' ∧
        readBitmap (offered items) s'.reply = .ok have_ [] := by
  have hi := manifest_inv hn h
  have hman : ∀ later, manifest items ++ later = encodings (items.map Item.entry) ++ (Entry.terminator ++ later) := by
    intro later
    rw [hw.manifest_eq, List.append_assoc]
    rfl
  refine ⟨fun later have_ rest hgot hread => ?_, fun later hl hstream => ?_⟩
  · rcases hi.reply with ⟨hr, hno⟩ | ⟨tail, hlist, hr, htail, hack⟩
    · -- no answer yet, which only an empty list reads as one
      rw [hr] at hread
      obtain ⟨bytes, mid, h1, h2⟩ := Codec.Read.bind_eq_ok.1 hread
      obtain ⟨hb, hlen⟩ := readExact_ok h1
      cases h2
      obtain ⟨rfl, rfl⟩ := List.append_eq_nil_iff.1 hb.symm
      have h0 : offered items = 0 := by
        have : (offered items + 7) / 8 = 0 := hlen.symm
        omega
      have hnone : answers fs0 cfg.root (items.map Item.entry) = [] := List.length_eq_zero_iff.1 ((length_answers _ _).trans h0)
      rw [h0, ← keepUnskipped_missing, hnone]
      exact ⟨rfl, .inr rfl, fun hx => (by cases hx), fun ⟨st, hx⟩ => absurd hx (hno st)⟩
    · rw [hman later] at hgot
      have hbits := hlist.unique hw.framed hgot
      rw [hr, hbits, ← @length_answers fs0 cfg.root items, readBitmap_encodeBitmap] at hread
      cases hread
      exact ⟨keepUnskipped_missing _ _, htail, hack⟩
  · rw [hman later] at hstream
    obtain ⟨n, s', hrun, ha, hr', hstream'⟩ := listing_answered hn hw.framed h hl hstream
    have hph := (manifest_inv hn hr').phase
    have hans : Listed cfg fs0 s'.bits s'.got ∧ s'.reply = encodeBitmap s'.bits := by
      cases hm : s'.main with
      | pairing | running => rw [hm] at hph; exact hph
      | _ => rw [hm] at ha; exact ha.elim
    have hbits := hans.1.unique hw.framed ⟨_, hstream'⟩
    refine ⟨n, s', s'.bits, hrun, ?_⟩
    have hread := readBitmap_encodeBitmap (answers fs0 cfg.root (items.map Item.entry)) []
    rw [length_answers, List.append_nil, ← hbits, ← hans.2] at hread
    exact hread

/-- Which file system has only names that fit, computed. -/
def Named.check (fs : Fs) : Bool :=
  fs.inodes.all fun x =>
    match x.node with
    | .dir es => es.all fun e => e.1.length ≤ NAME_MAX
    | _ => true

theorem Named.of_check (h : Named.check fs = true) : Named fs := by
  intro d n i hi
  unfold Fs.entry at hi
  split at hi
  · rename_i es hd
    obtain ⟨x, hx, hnode⟩ := Option.map_eq_some_iff.1 hd
    have hall := List.all_eq_true.1 h x (List.mem_of_getElem? hx)
    rw [hnode] at hall
    have hmem : (n, i) ∈ es := List.lookup_eq_some_iff.1 hi |>.elim fun l1 hl => by
      obtain ⟨l2, rfl, -⟩ := hl
      simp
    simpa using List.all_eq_true.1 hall _ hmem
  · cases hi

/-- A destination that has `d/f`, of two bytes, and in `l` a link to it. -/
def halfThere : Fs := ⟨[⟨.dir [([100], 1), ([108], 3)], 0o755, 0⟩, ⟨.dir [([102], 2)], 0o755, 0⟩, ⟨.file [1, 2], 0o644, 7⟩,
  ⟨.symlink [100, 47, 102], 0o777, 0⟩]⟩

/-- The file it has, a link, the same size and mtime under the link's name, and another size. -/
def offer : List Item :=
  [Send.makeItem [100] ⟨[100], by decide⟩ .dir 0 0o755 0, Send.makeItem [100, 102] ⟨[100, 47, 102], by decide⟩ .file 2 0o644 7,
    Send.makeItem [108] ⟨[108], by decide⟩ .file 2 0o644 7, Send.makeItem [100, 102] ⟨[100, 47, 102], by decide⟩ .file 3 0o644 7]

def answering : List Act :=
  .deliver 0 (manifest offer) :: List.replicate 15 (.main plainly)

theorem manifest_agrees_half : ∃ s, runIf (step single) (fun _ a _ => decide (a.fault = none)) (.init single halfThere) answering = some s ∧
    s.main = .running ∧ readBitmap (offered offer) s.reply = .ok [true, false, false] [] ∧
    (∀ later have_ rest, s.got <+: manifest offer ++ later → readBitmap (offered offer) s.reply = .ok have_ rest →
      (keepUnskipped offer have_).1 = missing halfThere single.root offer ∧ (rest = [ACK] ∨ rest = []) ∧
        (rest = [ACK] ↔ ∃ st, s.main = .returned (.ok st))) ∧
    ∀ later, s.main.listing → s.got ++ (s.flow 0).wire = manifest offer ++ later →
      ∃ n s' have_, run (step single) s (List.replicate n (.main plainly)) = some s' ∧
        readBitmap (offered offer) s'.reply = .ok have_ [] := by
  have hrun : ((runIf (step single) (fun _ a _ => decide (a.fault = none)) (.init single halfThere) answering).any fun s =>
      decide (s.main = .running ∧ readBitmap (offered offer) s.reply = .ok [true, false, false] [])) = true := by decide +kernel
  obtain ⟨s, hs, hv⟩ := (Option.any_eq_true _ _).1 hrun
  obtain ⟨hm, hread⟩ := of_decide_eq_true hv
  have hreach : Reach (step single) Unhindered (.init single halfThere) s := by
    refine .of_runIf (fun _ a _ ha => ?_) hs
    rintro c rfl
    exact of_decide_eq_true ha
  have hwalked : Walked offer := by
    intro item hi
    fin_cases hi <;> exact ⟨rfl, by decide, by decide, by decide⟩
  exact ⟨s, hs, hm, hread, manifest_agrees (Named.of_check (by decide +kernel)) hwalked hreach⟩

end Thunderflash.Recv
