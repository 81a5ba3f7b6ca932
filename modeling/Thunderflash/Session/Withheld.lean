/-
What the sender holds back: in every state of a session, whatever has failed, an item it does not send is a
file that the destination held when the session began.
-/
import Thunderflash.Session.Agreement
import Thunderflash.Recv.Vouched

namespace Thunderflash.Recv

open Codec Posix Lts

variable {cfg : Cfg} {fs0 : Fs} {s s' : State}

/-- What the receiver has written speaks for files that were there. -/
def Backed (cfg : Cfg) (fs0 : Fs) (s : State) : Prop :=
  s.reply = [] ∨ ∃ es, Vouched cfg fs0 es s.bits ∧ s.got = encodings es ++ Entry.terminator

/-- Before the answer nothing has been written, and behind it the whole manifest is read and vouched for. -/
theorem backed_at (ht : TallyOk s.bits s.stats s.got s.reply s.main) (hv : VouchOk cfg fs0 s.bits s.got s.main)
    (hm : ∀ e, s.main ≠ .returned (.error e)) : Backed cfg fs0 s := by
  cases hk : s.main with
  | openRoot => rw [hk] at ht; exact .inl ht.2.2
  | manifest | chainRoot | chain | stat | answer => rw [hk] at ht; exact .inl ht.2
  | pairing | running | flushing | acking => rw [hk] at hv; exact .inr hv
  | returned r =>
    cases r with
    | ok st => rw [hk] at hv; exact .inr hv
    | error e => exact absurd hk (hm e)

theorem backed_inv (h : Reachable cfg fs0 s) : Backed cfg fs0 s := by
  refine h.invariant (I := Backed cfg fs0) (.inl rfl) ?_
  intro s a s' hr ih hst _
  rcases step_told hst with hu | ⟨c, rfl, hs⟩
  · unfold Backed
    rw [hu.reply, hu.bits, hu.got]
    exact ih
  · by_cases hfail : ∃ e, s'.main = .returned (.error e)
    · obtain ⟨e, hm⟩ := hfail
      obtain ⟨hb, -, hg, hq, -⟩ := mainStep_failed hs hm
      unfold Backed
      rw [hq, hb, hg]
      exact ih
    · have hr' : Reachable cfg fs0 s' := .step hr hst trivial
      exact backed_at (tally_inv hr') (vouch_inv hr').phase fun e hm => hfail ⟨e, hm⟩

end Thunderflash.Recv

namespace Thunderflash.Session

open Codec Posix Lts

open Send (Item keepUnskipped manifest)

variable {x : Setup} {fs0 : Fs} {s s' : State}

/-! ## What the sender filtered by -/

/-- The sender has no answer, or the one the reply begins with. -/
def Filtered (x : Setup) (snd : Send.State) (reply : Bytes) : Prop :=
  snd.have_ = [] ∨ snd.wrote = manifest x.items ∧ (∀ todo, snd.main ≠ .offering todo) ∧
    ∃ rest, readBitmap (Send.offered x.items) reply = .ok snd.have_ rest

theorem Filtered.more {snd : Send.State} {reply reply' : Bytes} (h : Filtered x snd reply) (hg : reply <+: reply') :
    Filtered x snd reply' := by
  obtain ⟨more, rfl⟩ := hg
  refine h.imp_right fun ⟨hw, hm, rest, hr⟩ => ⟨hw, hm, _, (stable_readBitmap _).ok hr more⟩

theorem Filtered.send {snd snd' : Send.State} {reply : Bytes} {back : Nat} {a : Send.SessionAct}
    (hok : Send.SessionOk x.sender snd snd.main) (hrep : Replied x snd reply back snd.main) (h : Filtered x snd reply)
    (hs : Send.sessionStep x.sender snd a = some snd') : Filtered x snd' reply := by
  -- what the filter read stays
  have hkeep : ∀ {snd' : Send.State}, snd'.have_ = snd.have_ → snd'.wrote = snd.wrote → (∀ todo, snd'.main ≠ .offering todo) →
      Filtered x snd' reply := by
    intro snd' hh hw hm
    unfold Filtered
    rw [hh, hw]
    exact h.imp_right fun ⟨hw, _, hr⟩ => ⟨hw, hm, hr⟩
  cases a with
  | main c =>
    have hs : Send.mainStep x.sender c snd = some snd' := hs
    unfold Send.mainStep at hs
    split at hs
    case h_1 => cases hs; exact hkeep rfl rfl nofun
    case h_2 todo _ hm =>
      -- nothing has been read yet
      have hnone : snd.have_ = [] := h.resolve_right fun hx => hx.2.1 _ hm
      split at hs
      · cases hs; exact .inl hnone
      · split at hs <;> cases hs; exact .inl hnone
    case h_3 hm =>
      rw [hm] at hrep hok
      split at hs
      · cases hs; exact hkeep rfl rfl nofun
      · split at hs <;> cases hs; exact hkeep rfl rfl nofun
      · rename_i have_ rest _ hr
        cases hs
        have hheard : snd.heard = reply.take back := hrep
        rw [hheard] at hr
        have hread := (stable_readBitmap _).ok hr (reply.drop back)
        rw [List.take_append_drop] at hread
        refine .inr ⟨hok.1, fun todo hm => ?_, _, hread⟩
        have hm : (if x.flows = 1 then Send.MainPc.running else .pairing) = .offering todo := hm
        split at hm <;> cases hm
    case h_4 => split at hs <;> cases hs <;> exact hkeep rfl rfl nofun
    case h_5 =>
      split at hs
      · split at hs <;> cases hs <;> exact hkeep rfl rfl nofun
      · cases hs
    case h_6 =>
      split at hs
      · cases hs; exact hkeep rfl rfl nofun
      · split at hs <;> cases hs; exact hkeep rfl rfl nofun
      · cases hs; exact hkeep rfl rfl nofun
    case h_7 => cases hs
  | lane i a =>
    obtain ⟨-, -, ln, -, rfl⟩ := Send.lane_some hs
    exact h
  | hear bytes =>
    rw [show Send.sessionStep x.sender snd (.hear bytes) = if snd.eof then none else some { snd with heard := snd.heard ++ bytes } from rfl] at hs
    split at hs <;> cases hs
    exact h
  | cut => cases hs; exact h

theorem filtered_inv (h : Reachable x fs0 s) : Filtered x s.snd s.rcv.reply := by
  refine h.invariant (I := fun s => Filtered x s.snd s.rcv.reply) (.inl rfl) ?_
  rintro s a s' hr ih hst -
  have hok := Send.session_inv (sender_reachable hr)
  have hrep := (linked_inv hr).replied
  cases step_moves hst with
  | send a snd hs _ he => subst he; exact ih.send hok hrep hs
  | recv a rcv hs _ he => subst he; exact ih.more (Recv.reply_grows hs)
  | deliver i count rcv hs he => subst he; exact ih.more (Recv.reply_grows hs)
  | reply count snd hs he => subst he; exact ih.send hok hrep hs

/-! ## The files held back -/

/-- An item the filter drops is a file whose answer was a yes. -/
theorem keepUnskipped_dropped {P : Entry → Prop} : ∀ {items : List Item} {bits : List Bool},
    List.Forall₂ (fun e b => b = true → P e) (Recv.filesOf (items.map Item.entry)) bits → ∀ item ∈ items,
      item ∈ (keepUnskipped items bits).1 ∨ (item.entry.kind = .file ∧ P item.entry)
  | first :: items, bits, h, item, hi => by
    by_cases hk : first.entry.kind = .file
    · have hfiles : Recv.filesOf ((first :: items).map Item.entry) = first.entry :: Recv.filesOf (items.map Item.entry) := by
        simp [Recv.filesOf, hk]
      rw [hfiles] at h
      cases h with
      | @cons _ b _ bits hb h =>
        have hrest := keepUnskipped_dropped h
        rw [keepUnskipped, if_neg (by simp [hk])]
        cases b with
        | true =>
          rw [List.head?_cons, if_pos rfl, List.tail_cons]
          rcases List.mem_cons.1 hi with rfl | hi
          · exact .inr ⟨hk, hb rfl⟩
          · exact hrest item hi
        | false =>
          rw [List.head?_cons, if_neg (by simp), List.tail_cons]
          rcases List.mem_cons.1 hi with rfl | hi
          · exact .inl (List.mem_cons_self ..)
          · exact (hrest item hi).imp_left (List.mem_cons_of_mem _)
    · have hfiles : Recv.filesOf ((first :: items).map Item.entry) = Recv.filesOf (items.map Item.entry) := by
        simp [Recv.filesOf, hk]
      rw [hfiles] at h
      rw [keepUnskipped, if_pos hk]
      rcases List.mem_cons.1 hi with rfl | hi
      · exact .inl (List.mem_cons_self ..)
      · exact (keepUnskipped_dropped h item hi).imp_left (List.mem_cons_of_mem _)

/-- With no answer nothing is dropped. -/
theorem keepUnskipped_nil : ∀ items : List Item, (keepUnskipped items []).1 = items
  | [] => rfl
  | item :: items => by
    have ih := keepUnskipped_nil items
    unfold keepUnskipped
    split
    · exact congrArg (item :: ·) ih
    · rw [List.head?_nil, if_neg (by simp)]
      exact congrArg (item :: ·) ih

/-- The answer that the sender has is one for files that were there. -/
theorem have_backed (hv : Visited x.items) (h : Reachable x fs0 s) (hne : s.snd.have_ ≠ []) :
    List.Forall₂ (fun e b => b = true → Recv.Holds fs0 x.root e) (Recv.filesOf (x.items.map Item.entry)) s.snd.have_ := by
  obtain ⟨hw, -, rest, hread⟩ := (filtered_inv h).resolve_left hne
  -- an answer of no bytes is to no files
  have hsome : s.rcv.reply ≠ [] := by
    intro hq
    rw [hq] at hread
    obtain ⟨bytes, left, hbytes, hbits⟩ := Read.bind_eq_ok.1 hread
    obtain ⟨hnil, hlen⟩ := readExact_ok hbytes
    injection hbits with hbits _
    have hb : bytes = [] := (List.append_eq_nil_iff.1 hnil.symm).1
    rw [hb, List.length_nil] at hlen
    have hzero : Send.offered x.items = 0 := by omega
    rw [hzero] at hbits
    exact hne hbits.symm
  obtain ⟨es, hes, hgot⟩ := (Recv.backed_inv (receiver_reachable h)).resolve_left hsome
  obtain rfl := listing_whole hv h hw hes.framed hgot
  have hbits : s.snd.have_ = s.rcv.bits := by
    have hlen : s.rcv.bits.length = Send.offered x.items := by
      rw [← hes.held.length_eq, Recv.filesOf, List.filter_map, List.length_map]
      rfl
    have hall : ∀ more, s.rcv.reply = encodeBitmap s.rcv.bits ++ more → s.snd.have_ = s.rcv.bits := by
      intro more hq
      have hback := readBitmap_encodeBitmap s.rcv.bits more
      rw [hlen, ← hq, hread] at hback
      injection hback
    cases Recv.spoken_inv (receiver_reachable h) with
    | silent hq => exact absurd hq hsome
    | answered _ hq => exact hall [] (by rw [hq, List.append_nil])
    | done _ hq _ => exact hall _ hq
  rw [hbits]
  exact hes.held

/-- An item is left to send, or a file that was there. -/
theorem kept_or_held (hv : Visited x.items) (h : Reachable x fs0 s) {item : Item} (hi : item ∈ x.items) :
    item ∈ x.sender.kept s.snd.have_ ∨ (item.entry.kind = .file ∧ Recv.Holds fs0 x.root item.entry) := by
  by_cases hne : s.snd.have_ = []
  · left
    rw [Send.Job.kept, hne, keepUnskipped_nil]
    exact hi
  · exact keepUnskipped_dropped (have_backed hv h hne) item hi

/-- Nothing is held back in vain: in every state, whatever calls failed and connections broke, an item that is not in the
share of some flow is a file that stood at the destination with its size and mtime when the session began. -/
theorem withheld (hv : Visited x.items) (hf : 1 ≤ x.flows) (h : Reachable x fs0 s) {item : Item} (hi : item ∈ x.items) :
    (∃ i < x.flows, item ∈ x.sender.share s.snd.have_ i) ∨ (item.entry.kind = .file ∧ Recv.Holds fs0 x.root item.entry) := by
  refine (kept_or_held hv h hi).imp_left fun hk => ?_
  obtain ⟨hlen, hperm⟩ := deal_perm hf (x.sender.kept s.snd.have_)
  obtain ⟨share, hshare, hmem⟩ := List.mem_flatten.1 (hperm.mem_iff.2 hk)
  obtain ⟨i, hi, rfl⟩ := List.mem_iff_getElem.1 hshare
  refine ⟨i, by omega, ?_⟩
  rw [Send.Job.share, List.getD_eq_getElem?_getD]
  exact (List.getElem?_eq_getElem hi).symm ▸ hmem

/-- The file `t` is there, so that `u` and the directory are what is left to send. -/
theorem withheld_pair : ∃ s, run (step pair) (.init pair hasT) agreeing = some s ∧
    ∀ item ∈ three, (∃ i < 2, item ∈ pair.sender.share s.snd.have_ i) ∨ (item.entry.kind = .file ∧ Recv.Holds hasT 0 item.entry) := by
  have hrun : ((run (step pair) (.init pair hasT) agreeing).isSome) = true := by decide +kernel
  obtain ⟨s, hs⟩ := Option.isSome_iff_exists.1 hrun
  exact ⟨s, hs, fun item hi => @withheld pair hasT s three_visited (by decide) (.of_run hs) item hi⟩

end Thunderflash.Session
