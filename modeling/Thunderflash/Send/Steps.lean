/-
What a step of a lane does, and who has left when the socket loop is past its end.
-/
import Thunderflash.Send.Model
import Thunderflash.Lts.Run

namespace Thunderflash.Send

open Codec Lts

variable {cfg : Cfg} {c : Choice} {ln ln' : Lane} {todo0 : List Item}

/-- The states a lane over these items can be in. -/
abbrev Reachable (cfg : Cfg) (todo : List Item) (ln : Lane) : Prop := Reach (step cfg) Any (.init cfg todo) ln

theorem step_cases {a : Act} (h : step cfg ln a = some ln') : (∃ c, ln.readStep cfg c = some ln') ∨
    (cfg.verify = true ∧ ln.hashStep cfg = some ln') ∨ ∃ c, ln.sockStep cfg c = some ln' := by
  cases a with
  | read c => exact .inl ⟨c, h⟩
  | hash =>
    rw [show step cfg ln .hash = if cfg.verify then ln.hashStep cfg else none from rfl] at h
    split at h
    · exact .inr (.inl ⟨by assumption, h⟩)
    · cases h
  | sock c => exact .inr (.inr ⟨c, h⟩)

/-! ## What a step of the reader does -/

/-- The reader's steps, as the other threads see them. -/
inductive ReadMove (cfg : Cfg) (ln ln' : Lane) : Prop
  | goes {reader : ReaderPc} {finished : Nat} : ln' = { ln with reader, finished } → ReadMove cfg ln ln'
  | take {reader : ReaderPc} : 0 < ln.pool → ln' = { ln with reader, pool := ln.pool - 1 } → ReadMove cfg ln ln'
  | push {m : Except Err Msg} {reader : ReaderPc} {finished : Nat} : ¬ ln.sinkGone cfg → ln.sinkRoom cfg →
      ln' = { ln.push cfg m with reader, finished } → ReadMove cfg ln ln'

namespace Lane

theorem items_eq (todo : List Item) (ln : Lane) : ∃ reader, ln.items todo = { ln with reader } := by
  unfold items
  split <;> exact ⟨_, rfl⟩

theorem finish_eq (todo : List Item) (ln : Lane) : ∃ reader, ln.finish todo = { ln with reader, finished := ln.finished + 1 } :=
  items_eq todo { ln with finished := ln.finished + 1 }

theorem body_eq (item : Item) (todo : List Item) (ln : Lane) :
    ∃ reader finished, ln.body item todo = { ln with reader, finished } := by
  unfold body
  split
  · obtain ⟨r, hr⟩ := finish_eq todo ln; exact ⟨r, _, hr⟩
  · obtain ⟨r, hr⟩ := finish_eq todo ln; exact ⟨r, _, hr⟩
  · exact ⟨_, _, rfl⟩
  · exact ⟨_, _, rfl⟩

theorem stream_eq (item : Item) (todo : List Item) (sent : Nat) (ln : Lane) :
    ∃ reader finished, ln.stream cfg item todo sent = { ln with reader, finished } := by
  unfold stream
  split
  · exact ⟨_, _, rfl⟩
  · split
    · exact ⟨_, _, rfl⟩
    · obtain ⟨r, hr⟩ := finish_eq todo ln; exact ⟨r, _, hr⟩

/-- What a send comes to. -/
theorem send_some {m : Except Err Msg} {next gone : Lane → Lane} (h : ln.send cfg m next gone = some ln') :
    (ln.sinkGone cfg ∧ ln' = gone ln) ∨ (¬ ln.sinkGone cfg ∧ ln.sinkRoom cfg ∧ ln' = next (ln.push cfg m)) := by
  unfold send at h
  split at h
  · cases h; exact .inl ⟨by assumption, rfl⟩
  · split at h <;> cases h
    exact .inr ⟨by assumption, by assumption, rfl⟩

theorem send_move {m : Except Err Msg} {next gone : Lane → Lane}
    (hn : ∀ ln : Lane, ∃ reader finished, next ln = { ln with reader, finished })
    (hg : ∃ reader finished, gone ln = { ln with reader, finished }) (h : ln.send cfg m next gone = some ln') :
    ReadMove cfg ln ln' := by
  rcases send_some h with ⟨-, rfl⟩ | ⟨hs, hr, rfl⟩
  · obtain ⟨r, f, he⟩ := hg
    exact .goes he
  · obtain ⟨r, f, he⟩ := hn (ln.push cfg m)
    exact .push hs hr he

theorem readStep_move (h : ln.readStep cfg c = some ln') : ¬ ln.readerLeft ∧ ReadMove cfg ln ln' := by
  have hleave : ∀ ln : Lane, ∃ reader finished, ln.leave = { ln with reader, finished } := fun _ => ⟨_, _, rfl⟩
  have hfinish : ∀ todo, ∀ ln : Lane, ∃ reader finished, ln.finish todo = { ln with reader, finished } := by
    intro todo ln
    obtain ⟨r, hr⟩ := finish_eq todo ln
    exact ⟨r, _, hr⟩
  unfold readStep at h
  split at h
  case h_1 hr => exact ⟨by simp [readerLeft, hr], send_move (body_eq _ _) (hleave _) h⟩
  case h_2 hr =>
    refine ⟨by simp [readerLeft, hr], ?_⟩
    split at h <;> cases h
    · exact .goes rfl
    · split <;> exact .goes rfl
  case h_3 hr =>
    refine ⟨by simp [readerLeft, hr], send_move (fun ln => ?_) (hleave _) h⟩
    split
    · exact ⟨_, _, rfl⟩
    · exact hfinish _ _
  case h_4 hr => exact ⟨by simp [readerLeft, hr], send_move (hfinish _) (hleave _) h⟩
  case h_5 hr =>
    refine ⟨by simp [readerLeft, hr], ?_⟩
    split at h <;> cases h
    · exact .goes rfl
    · obtain ⟨r, f, he⟩ := @stream_eq cfg _ _ 0 ln
      exact .goes he
  case h_6 hr =>
    refine ⟨by simp [readerLeft, hr], ?_⟩
    split at h
    · cases h; exact .take (by assumption) rfl
    · split at h <;> cases h
      obtain ⟨r, f, he⟩ := hfinish _ ln
      exact .goes he
  case h_7 hr =>
    refine ⟨by simp [readerLeft, hr], ?_⟩
    split at h
    · cases h; exact .goes rfl
    · split at h
      · cases h; exact .goes rfl
      · split at h
        · cases h; exact .goes rfl
        · split at h <;> cases h
          exact .goes rfl
  case h_8 hr => exact ⟨by simp [readerLeft, hr], send_move (stream_eq _ _ _) (hfinish _ _) h⟩
  case h_9 hr => exact ⟨by simp [readerLeft, hr], send_move (hfinish _) (hfinish _ _) h⟩
  case h_10 hr => exact ⟨by simp [readerLeft, hr], send_move hleave (hleave _) h⟩
  case h_11 => cases h

/-- What the hash stage does not touch. -/
theorem hashStep_only (h : ln.hashStep cfg = some ln') :
    ¬ ln.hashLeft ∧ ∃ rq hasher sq hash, ln' = { ln with rq, hasher, sq, hash } := by
  unfold hashStep at h
  split at h
  case h_1 hh =>
    refine ⟨by simp [hashLeft, hh], ?_⟩
    split at h
    · cases h; exact ⟨_, _, _, _, rfl⟩
    · cases h; exact ⟨_, _, _, _, rfl⟩
    · cases h; exact ⟨_, _, _, _, rfl⟩
    · split at h <;> cases h; exact ⟨_, _, _, _, rfl⟩
  case h_2 hh =>
    refine ⟨by simp [hashLeft, hh], ?_⟩
    split at h
    · cases h; exact ⟨_, _, _, _, rfl⟩
    · split at h <;> cases h; exact ⟨_, _, _, _, rfl⟩
  case h_3 => cases h

/-- What the socket loop does not touch. -/
theorem sockStep_only (h : ln.sockStep cfg c = some ln') :
    ∃ sq sock pool stats wrote moved taken, ln' = { ln with
      sq, sock, pool, stats, wrote, moved, log := { ln.log with taken } } := by
  unfold sockStep at h
  split at h
  case h_1 =>
    split at h
    · cases h; exact ⟨_, _, _, _, _, _, _, rfl⟩
    · cases h; exact ⟨_, _, _, _, _, _, _, rfl⟩
    · cases h; exact ⟨_, _, _, _, _, _, _, rfl⟩
    · split at h <;> cases h; exact ⟨_, _, _, _, _, _, _, rfl⟩
  case h_2 m _ =>
    cases h
    unfold counted
    split <;> exact ⟨_, _, _, _, _, _, _, rfl⟩
  case h_3 =>
    split at h
    · cases h; exact ⟨_, _, _, _, _, _, _, rfl⟩
    · split at h <;> cases h; exact ⟨_, _, _, _, _, _, _, rfl⟩
  case h_4 => cases h; exact ⟨_, _, _, _, _, _, _, rfl⟩
  case h_5 => split at h <;> cases h; exact ⟨_, _, _, _, _, _, _, rfl⟩
  case h_6 => split at h <;> cases h; exact ⟨_, _, _, _, _, _, _, rfl⟩
  case h_7 => split at h <;> cases h <;> exact ⟨_, _, _, _, _, _, _, rfl⟩
  case h_8 => cases h
  case h_9 => cases h

end Lane

/-! ## Who has left -/

/-- The socket loop was left by an error. -/
def SockPc.failed : SockPc → Prop
  | .closing _ | .left (.error _) | .panicked => True
  | _ => False

/-- The socket loop came to its end. -/
def SockPc.past : SockPc → Prop
  | .joinReader | .joinHasher | .terminator | .left (.ok _) => True
  | _ => False

theorem rxGone_iff (ln : Lane) : ln.rxGone ↔ ln.sock.failed ∨ ln.sock.past := by
  unfold Lane.rxGone SockPc.failed SockPc.past
  cases ln.sock with
  | left r => cases r <;> simp
  | _ => simp

structure Joined (cfg : Cfg) (ln : Lane) : Prop where
  hash : cfg.verify = true → ln.hashLeft → ln.sock.failed ∨ (ln.readerLeft ∧ ln.rq = [])
  past : ln.sock.past → ln.sourceLeft cfg ∧ ln.sq = []
  hasher : ln.sock = .joinHasher → ln.readerLeft
  done : ln.sock = .terminator ∨ ln.sock = .left (.ok ()) → ln.readerLeft ∧ ln.hashLeft
  silent : cfg.verify = false → ln.hashLeft ∧ ln.rq = []

theorem Lane.init_eq (cfg : Cfg) (todo : List Item) : ∃ reader, Lane.init cfg todo =
    { reader
      rq := [], hash := if cfg.verify then .recv else .left, hasher := [], sq := [], sock := .recv
      pool := cfg.depth + 2, stats := ⟨0, 0, 0, 0⟩, wrote := [], finished := 0, moved := 0, log := ⟨[], []⟩ } :=
  Lane.items_eq todo _

theorem Joined.init (cfg : Cfg) (todo : List Item) : Joined cfg (.init cfg todo) := by
  obtain ⟨r, hr⟩ := Lane.init_eq cfg todo
  rw [hr]
  refine ⟨fun hv hl => ?_, fun h => h.elim, fun h => (by cases h), fun h => (by rcases h with h | h <;> cases h),
    fun hv => ⟨by simp [Lane.hashLeft, hv], rfl⟩⟩
  simp [Lane.hashLeft, hv] at hl

/-- Before the reader has left, the loop has not come to its end. -/
theorem Joined.not_past (h : Joined cfg ln) (hr : ¬ ln.readerLeft) : ¬ ln.sock.past := by
  intro hp
  have hsrc := (h.past hp).1
  unfold Lane.sourceLeft at hsrc
  split at hsrc
  · rename_i hv
    rcases h.hash hv hsrc with hf | ⟨hl, -⟩
    · cases hs : ln.sock with
      | left r => rw [hs] at hp hf; cases r <;> simp_all [SockPc.past, SockPc.failed]
      | _ => rw [hs] at hp hf; simp_all [SockPc.past, SockPc.failed]
    · exact hr hl
  · exact hr hsrc

/-- Before the loop is left by an error nobody has dropped a receiver that the reader sends to. -/
theorem Joined.nobody_gone (hj : Joined cfg ln) (hf : ¬ ln.sock.failed) (hl : ¬ ln.readerLeft) : ¬ ln.sinkGone cfg ∧ ¬ ln.returned := by
  have hrx : ¬ ln.rxGone := fun hx => ((rxGone_iff ln).1 hx).elim hf (hj.not_past hl)
  constructor
  · unfold Lane.sinkGone
    split
    · rename_i hv
      exact fun hx => (hj.hash hv hx).elim hf fun hx => hl hx.1
    · exact hrx
  · intro hx
    apply hrx
    unfold Lane.returned at hx
    unfold Lane.rxGone
    cases hk : ln.sock <;> simp_all

theorem Joined.readStep (h : Joined cfg ln) (hs : ln.readStep cfg c = some ln') : Joined cfg ln' := by
  obtain ⟨hl, hm⟩ := Lane.readStep_move hs
  have hp := h.not_past hl
  -- the socket loop and the hash stage stand where they stood
  have hof : ln'.sock = ln.sock → ln'.hash = ln.hash → (cfg.verify = true → ln.hashLeft → ln'.rq = ln.rq) →
      (cfg.verify = false → ln'.rq = ln.rq) → Joined cfg ln' := by
    intro hsock hhash hrq hrq'
    have hleft : ln'.hashLeft ↔ ln.hashLeft := by simp only [Lane.hashLeft, hhash]
    refine ⟨fun hv hx => ?_, fun hx => ?_, fun hx => ?_, fun hx => ?_, fun hv => ?_⟩
    · rw [hsock]
      exact .inl ((h.hash hv (hleft.1 hx)).resolve_right fun hx => hl hx.1)
    · rw [hsock] at hx; exact absurd hx hp
    · rw [hsock] at hx; exact absurd (by rw [hx]; trivial) hp
    · rw [hsock] at hx
      exact absurd (by rcases hx with hx | hx <;> rw [hx] <;> trivial) hp
    · rw [hleft, hrq' hv]; exact h.silent hv
  cases hm with
  | goes he => subst he; exact hof rfl rfl (fun _ _ => rfl) fun _ => rfl
  | take _ he => subst he; exact hof rfl rfl (fun _ _ => rfl) fun _ => rfl
  | push hg _ he =>
    subst he
    unfold Lane.sinkGone at hg
    unfold Lane.push at hof ⊢
    split at hg
    · rename_i hv
      rw [if_pos hv] at hof ⊢
      exact hof rfl rfl (fun _ hx => absurd hx hg) fun hx => absurd (hv.symm.trans hx) (by simp)
    · rename_i hv
      rw [if_neg hv] at hof ⊢
      exact hof rfl rfl (fun _ _ => rfl) fun _ => rfl

theorem Joined.hashStep (h : Joined cfg ln) (hv : cfg.verify = true) (hs : ln.hashStep cfg = some ln') : Joined cfg ln' := by
  have hn := (Lane.hashStep_only hs).1
  have hp : ¬ ln.sock.past := by
    intro hp
    have hsrc := (h.past hp).1
    unfold Lane.sourceLeft at hsrc
    rw [if_pos hv] at hsrc
    exact hn hsrc
  have hof : ln'.sock = ln.sock → (ln'.hashLeft → ln.sock.failed ∨ (ln'.readerLeft ∧ ln'.rq = [])) → Joined cfg ln' := by
    intro hsock hhash
    refine ⟨fun _ hx => ?_, fun hx => ?_, fun hx => ?_, fun hx => ?_, fun hx => absurd (hv.symm.trans hx) (by simp)⟩
    · rw [hsock]; exact hhash hx
    · rw [hsock] at hx; exact absurd hx hp
    · rw [hsock] at hx; exact absurd (by rw [hx]; trivial) hp
    · rw [hsock] at hx
      exact absurd (by rcases hx with hx | hx <;> rw [hx] <;> trivial) hp
  unfold Lane.hashStep at hs
  split at hs
  case h_1 =>
    split at hs
    · cases hs; exact hof rfl (by simp [Lane.hashLeft])
    · cases hs; exact hof rfl (by simp [Lane.hashLeft])
    · cases hs; exact hof rfl (by simp [Lane.hashLeft])
    · rename_i hq
      split at hs
      · rename_i hl
        cases hs
        exact hof rfl fun _ => .inr ⟨hl, hq⟩
      · cases hs
  case h_2 =>
    split at hs
    · rename_i hg
      cases hs
      exact hof rfl fun _ => .inl (((rxGone_iff ln).1 hg).resolve_right hp)
    · split at hs <;> cases hs
      exact hof rfl (by simp [Lane.hashLeft])
  case h_3 => cases hs

theorem Joined.sockStep (h : Joined cfg ln) (hs : ln.sockStep cfg c = some ln') : Joined cfg ln' := by
  obtain ⟨sq, sock, pool, stats, wrote, moved, taken, hln⟩ := Lane.sockStep_only hs
  have hsilent : cfg.verify = false → ln'.hashLeft ∧ ln'.rq = [] := by rw [hln]; exact h.silent
  have hhash : ∀ P : Prop, (ln.sock.failed → P) → cfg.verify = true → ln'.hashLeft → P ∨ (ln'.readerLeft ∧ ln'.rq = []) := by
    rw [hln]
    exact fun P hP hv hx => (h.hash hv hx).imp_left hP
  have hsrc : ln.sourceLeft cfg → ln'.sourceLeft cfg := by rw [hln]; exact id
  have hread : ln.readerLeft → ln'.readerLeft := by rw [hln]; exact id
  have hleft : ln.hashLeft → ln'.hashLeft := by rw [hln]; exact id
  clear hln
  -- a loop still running, or left by an error, owes nothing
  have hopen : ¬ ln'.sock.past → (ln.sock.failed → ln'.sock.failed) → Joined cfg ln' := by
    intro hp hf
    refine ⟨hhash _ hf, fun hx => absurd hx hp, fun hx => ?_, fun hx => ?_, hsilent⟩
    · exact absurd (by rw [hx]; trivial) hp
    · exact absurd (by rcases hx with hx | hx <;> rw [hx] <;> trivial) hp
  unfold Lane.sockStep at hs
  split at hs
  case h_1 hk =>
    have hno : ¬ ln.sock.failed := by rw [hk]; exact id
    split at hs
    · cases hs; exact hopen id fun _ => trivial
    · cases hs; exact hopen id fun _ => trivial
    · cases hs; exact hopen id fun hx => absurd hx hno
    · rename_i hq
      split at hs
      · rename_i hl
        cases hs
        exact ⟨hhash _ fun hx => absurd hx hno, fun _ => ⟨hsrc hl, hq⟩, fun hx => (by cases hx),
          fun hx => (by rcases hx with hx | hx <;> cases hx), hsilent⟩
      · cases hs
  case h_2 m hk =>
    have hno : ¬ ln.sock.failed := by rw [hk]; exact id
    have hrecv : ln'.sock = .recv := by
      cases hs
      unfold Lane.counted
      split <;> rfl
    exact hopen (by rw [hrecv]; exact id) fun hx => absurd hx hno
  case h_3 hk =>
    have hno : ¬ ln.sock.failed := by rw [hk]; exact id
    split at hs
    · cases hs; exact hopen id fun _ => trivial
    · split at hs <;> cases hs
      exact hopen id fun hx => absurd hx hno
  case h_4 => cases hs; exact hopen id fun _ => trivial
  case h_5 hk =>
    have hpast := h.past (by rw [hk]; trivial)
    have hno : ¬ ln.sock.failed := by rw [hk]; exact id
    split at hs
    · rename_i hl
      cases hs
      refine ⟨hhash _ fun hx => absurd hx hno, fun _ => ⟨hsrc hpast.1, hpast.2⟩, fun _ => hread hl, fun hx => ⟨hread hl, ?_⟩, hsilent⟩
      split at hx
      · rcases hx with hx | hx <;> cases hx
      · rename_i hv
        exact (hsilent (by simpa using hv)).1
    · cases hs
  case h_6 hk =>
    have hpast := h.past (by rw [hk]; trivial)
    have hno : ¬ ln.sock.failed := by rw [hk]; exact id
    split at hs
    · rename_i hl
      cases hs
      exact ⟨hhash _ fun hx => absurd hx hno, fun _ => ⟨hsrc hpast.1, hpast.2⟩, fun _ => hread (h.hasher hk),
        fun _ => ⟨hread (h.hasher hk), hleft hl⟩, hsilent⟩
    · cases hs
  case h_7 hk =>
    have hpast := h.past (by rw [hk]; trivial)
    have hdone := h.done (.inl hk)
    have hno : ¬ ln.sock.failed := by rw [hk]; exact id
    split at hs
    · cases hs; exact hopen id fun _ => trivial
    · cases hs
      exact ⟨hhash _ fun hx => absurd hx hno, fun _ => ⟨hsrc hpast.1, hpast.2⟩, fun _ => hread hdone.1,
        fun _ => ⟨hread hdone.1, hleft hdone.2⟩, hsilent⟩
  case h_8 => cases hs
  case h_9 => cases hs

theorem joined_inv (h : Reachable cfg todo0 ln) : Joined cfg ln := by
  refine h.invariant (.init cfg todo0) ?_
  intro ln a ln' _ ih hst _
  rcases step_cases hst with ⟨c, h⟩ | ⟨hv, h⟩ | ⟨c, h⟩
  · exact ih.readStep h
  · exact ih.hashStep hv h
  · exact ih.sockStep h

end Thunderflash.Send
