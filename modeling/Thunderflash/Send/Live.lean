/-
No lane gets stuck: while a stage has not returned some stage can go on, and every step costs some
of a finite amount of work, so all of them return.
-/
import Thunderflash.Send.Buffers

namespace Thunderflash.Send

open Codec Lts

variable {cfg : Cfg} {c : Choice} {ln ln' : Lane} {todo0 : List Item}

/-! ## Where a stage stands still -/

/-- A buffer is asked for only where bytes are missing, and filled only until it is full. -/
def ReaderPc.Unfilled : ReaderPc → Prop
  | .at item (.takeBuf sent) _ => sent < item.entry.size.toNat
  | .at item (.fill sent filled) _ => filled.length < Lane.want item sent
  | _ => True

namespace Lane

theorem items_unfilled (todo : List Item) (ln : Lane) : (ln.items todo).reader.Unfilled := by
  unfold items; split <;> trivial

theorem body_unfilled (item : Item) (todo : List Item) (ln : Lane) : (ln.body item todo).reader.Unfilled := by
  unfold body
  split
  · exact items_unfilled _ _
  · exact items_unfilled _ _
  · trivial
  · trivial

theorem stream_unfilled (item : Item) (todo : List Item) (sent : Nat) (ln : Lane) :
    (ln.stream cfg item todo sent).reader.Unfilled := by
  unfold stream
  split
  · assumption
  · split
    · trivial
    · exact items_unfilled _ _

theorem finish_unfilled (todo : List Item) (ln : Lane) : (ln.finish todo).reader.Unfilled := items_unfilled _ _

theorem send_unfilled {m : Except Err Msg} {next gone : Lane → Lane} (h : ln.send cfg m next gone = some ln')
    (hn : ∀ ln : Lane, (next ln).reader.Unfilled) (hg : (gone ln).reader.Unfilled) : ln'.reader.Unfilled := by
  rcases send_some h with ⟨-, rfl⟩ | ⟨-, -, rfl⟩
  · exact hg
  · exact hn _

theorem readStep_unfilled (hu : ln.reader.Unfilled) (h : ln.readStep cfg c = some ln') : ln'.reader.Unfilled := by
  unfold readStep at h
  split at h
  case h_1 => exact send_unfilled h (body_unfilled _ _) trivial
  case h_2 =>
    split at h <;> cases h
    · trivial
    · split <;> trivial
  case h_3 =>
    refine send_unfilled h (fun ln => ?_) trivial
    split
    · trivial
    · exact finish_unfilled _ _
  case h_4 => exact send_unfilled h (finish_unfilled _) trivial
  case h_5 =>
    split at h <;> cases h
    · trivial
    · exact stream_unfilled _ _ _ _
  case h_6 item sent todo hr =>
    split at h
    · cases h
      rw [hr] at hu
      have hlt : sent < item.entry.size.toNat := hu
      show 0 < want item sent
      unfold want CHUNK
      omega
    · split at h <;> cases h
      exact items_unfilled _ _
  case h_7 =>
    split at h
    · cases h; trivial
    · split at h
      · cases h; trivial
      · split at h
        · cases h; assumption
        · split at h <;> cases h
          trivial
  case h_8 => exact send_unfilled h (stream_unfilled _ _ _) (finish_unfilled _ _)
  case h_9 => exact send_unfilled h (finish_unfilled _) (finish_unfilled _ _)
  case h_10 => exact send_unfilled h (fun _ => trivial) trivial
  case h_11 => cases h

end Lane

theorem unfilled_inv (h : Reachable cfg todo0 ln) : ln.reader.Unfilled := by
  refine h.invariant (I := fun ln => ln.reader.Unfilled) (Lane.items_unfilled _ _) ?_
  intro ln a ln' _ ih hst _
  rcases step_cases hst with ⟨c, h⟩ | ⟨-, h⟩ | ⟨c, h⟩
  · exact Lane.readStep_unfilled ih h
  · obtain ⟨-, _, _, _, _, rfl⟩ := Lane.hashStep_only h
    exact ih
  · obtain ⟨_, _, _, _, _, _, _, rfl⟩ := Lane.sockStep_only h
    exact ih

/-- Nothing fails, a read gives one byte and a write takes one. -/
def plain : Choice := ⟨none, [0], 1⟩

theorem send_blocked {m : Except Err Msg} {next gone : Lane → Lane} (h : ln.send cfg m next gone = none) :
    ¬ ln.sinkGone cfg ∧ ¬ ln.sinkRoom cfg := by
  unfold Lane.send at h
  split at h
  · cases h
  · split at h
    · cases h
    · exact ⟨by assumption, by assumption⟩

theorem read_blocked (hu : ln.reader.Unfilled) (h : ln.readStep cfg plain = none) :
    ln.readerLeft ∨ (¬ ln.sinkGone cfg ∧ ¬ ln.sinkRoom cfg) ∨
      ((∃ item sent todo, ln.reader = .at item (.takeBuf sent) todo) ∧ ln.pool = 0 ∧ ¬ ln.returned) := by
  unfold Lane.readStep at h
  split at h
  case h_1 => exact .inr (.inl (send_blocked h))
  case h_2 => cases h
  case h_3 => exact .inr (.inl (send_blocked h))
  case h_4 => exact .inr (.inl (send_blocked h))
  case h_5 => cases h
  case h_6 hr =>
    split at h
    · cases h
    · split at h
      · cases h
      · exact .inr (.inr ⟨⟨_, _, _, hr⟩, by omega, by assumption⟩)
  case h_7 item sent filled todo hr =>
    rw [hr] at hu
    have hlt : filled.length < Lane.want item sent := hu
    have hlen : (filled ++ plain.data).length = filled.length + 1 := by rw [List.length_append]; rfl
    rw [show plain.fault = none from rfl] at h
    dsimp only at h
    rw [if_neg (show plain.data ≠ [] by simp [plain])] at h
    by_cases hmore : (filled ++ plain.data).length < Lane.want item sent
    · rw [if_pos hmore] at h
      cases h
    · rw [if_neg hmore, if_pos (by omega)] at h
      cases h
  case h_8 => exact .inr (.inl (send_blocked h))
  case h_9 => exact .inr (.inl (send_blocked h))
  case h_10 => exact .inr (.inl (send_blocked h))
  case h_11 hr => exact .inl hr

theorem hash_blocked (h : ln.hashStep cfg = none) :
    (ln.hash = .recv ∧ ln.rq = [] ∧ ¬ ln.readerLeft) ∨
      (¬ ln.hashLeft ∧ ¬ ln.rxGone ∧ cfg.depth ≤ ln.sq.length) ∨ ln.hashLeft := by
  unfold Lane.hashStep at h
  split at h
  case h_1 hh =>
    split at h
    case h_4 hq =>
      split at h
      · cases h
      · exact .inl ⟨hh, hq, by assumption⟩
    all_goals cases h
  case h_2 m hh =>
    split at h
    · cases h
    · split at h
      · cases h
      · exact .inr (.inl ⟨by simp [Lane.hashLeft, hh], by assumption, by omega⟩)
  case h_3 hh => exact .inr (.inr hh)

theorem sock_blocked (h : ln.sockStep cfg plain = none) :
    (ln.sock = .recv ∧ ln.sq = [] ∧ ¬ ln.sourceLeft cfg) ∨ (ln.sock = .joinReader ∧ ¬ ln.readerLeft) ∨
      (ln.sock = .joinHasher ∧ ¬ ln.hashLeft) ∨ ln.returned := by
  unfold Lane.sockStep at h
  split at h
  case h_1 hk =>
    split at h
    case h_4 hq =>
      split at h
      · cases h
      · exact .inl ⟨hk, hq, by assumption⟩
    all_goals cases h
  case h_2 => cases h
  case h_3 hne _ =>
    rw [show plain.fault = none from rfl] at h
    dsimp only at h
    rw [if_pos ⟨Nat.one_pos, List.length_pos_iff.2 hne⟩] at h
    cases h
  case h_4 => cases h
  case h_5 hk =>
    split at h
    · cases h
    · exact .inr (.inl ⟨hk, by assumption⟩)
  case h_6 hk =>
    split at h
    · cases h
    · exact .inr (.inr (.inl ⟨hk, by assumption⟩))
  case h_7 => cases h
  case h_8 hk => exact .inr (.inr (.inr (by unfold Lane.returned; rw [hk]; trivial)))
  case h_9 hk => exact .inr (.inr (.inr (by unfold Lane.returned; rw [hk]; trivial)))

/-! ## Progress -/

/-- All stages have returned. -/
def Lane.Done (ln : Lane) : Prop := ln.readerLeft ∧ ln.hashLeft ∧ ln.returned

/-- Some stage can take a step in which nothing fails. -/
def Moves (cfg : Cfg) (ln : Lane) : Prop :=
  ∃ c : Choice, c.fault = none ∧
    ((step cfg ln (.read c)).isSome ∨ (step cfg ln .hash).isSome ∨ (step cfg ln (.sock c)).isSome)

theorem lane_progress (hd : 1 ≤ cfg.depth) (h : Reachable cfg todo0 ln) (hn : ¬ ln.Done) : Moves cfg ln := by
  have hj := joined_inv h
  by_contra hno
  have hno' : ¬ ((step cfg ln (.read plain)).isSome ∨ (step cfg ln .hash).isSome ∨ (step cfg ln (.sock plain)).isSome) :=
    fun hx => hno ⟨plain, rfl, hx⟩
  simp only [not_or, Option.not_isSome_iff_eq_none] at hno'
  obtain ⟨hread, hhash, hsock⟩ := hno'
  have hhash' : cfg.verify = true → ln.hashStep cfg = none := by
    intro hv
    rw [show step cfg ln .hash = if cfg.verify then ln.hashStep cfg else none from rfl, if_pos hv] at hhash
    exact hhash
  -- the joins never wait: the loop has ended because the stages before it have left
  have hsock' : (ln.sock = .recv ∧ ln.sq = [] ∧ ¬ ln.sourceLeft cfg) ∨ ln.returned := by
    rcases sock_blocked hsock with hx | ⟨hk, hl⟩ | ⟨hk, hl⟩ | hx
    · exact .inl hx
    · exact absurd (by rw [hk]; trivial) (hj.not_past hl)
    · have hsrc := (hj.past (by rw [hk]; trivial)).1
      unfold Lane.sourceLeft at hsrc
      split at hsrc
      · exact absurd hsrc hl
      · exact absurd (hj.silent (by simpa using ‹¬ cfg.verify = true›)).1 hl
    · exact .inr hx
  -- nor does the hash stage wait for room
  have hidle : ln.hashLeft ∨ (cfg.verify = true ∧ ln.hash = .recv ∧ ln.rq = [] ∧ ¬ ln.readerLeft) := by
    by_cases hv : cfg.verify = true
    · rcases hash_blocked (hhash' hv) with ⟨hh, hq, hl⟩ | ⟨-, hg, hfull⟩ | hl
      · exact .inr ⟨hv, hh, hq, hl⟩
      · rcases hsock' with ⟨-, hsq, -⟩ | hret
        · rw [hsq, List.length_nil] at hfull
          omega
        · exact absurd (by unfold Lane.returned at hret; unfold Lane.rxGone; split at hret <;> simp_all) hg
      · exact .inl hl
    · exact .inl (hj.silent (by simpa using hv)).1
  rcases read_blocked (unfilled_inv h) hread with hl | ⟨hg, hroom⟩ | ⟨⟨item, sent, todo, hr⟩, hpool, hret⟩
  · -- the reader has left, so everybody else has
    have hhl : ln.hashLeft := hidle.resolve_right fun hx => hx.2.2.2 hl
    rcases hsock' with ⟨-, -, hsrc⟩ | hret
    · refine hsrc ?_
      unfold Lane.sourceLeft
      split
      · exact hhl
      · exact hl
    · exact hn ⟨hl, hhl, hret⟩
  · refine hroom ?_
    unfold Lane.sinkGone at hg
    unfold Lane.sinkRoom
    split
    · rename_i hv
      rw [if_pos hv] at hg
      rw [(hidle.resolve_left hg).2.2.1]
      exact hd
    · rename_i hv
      rw [if_neg hv] at hg
      rcases hsock' with ⟨-, hsq, -⟩ | hret
      · rw [hsq]; exact hd
      · exact absurd (by unfold Lane.returned at hret; unfold Lane.rxGone; split at hret <;> simp_all) hg
  · -- no buffer is free, none is on its way and none in a hand
    obtain ⟨hk, hsq, hsrc⟩ := hsock'.resolve_right hret
    have hl : ¬ ln.readerLeft := by simp [Lane.readerLeft, hr]
    have hh : cfg.verify = true → ¬ ln.hashLeft := by
      intro hv hx
      unfold Lane.sourceLeft at hsrc
      rw [if_pos hv] at hsrc
      exact hsrc hx
    have hwhole := (stocked_inv h).whole (by
      rintro (hx | hx | ⟨hv, hx⟩)
      · rw [hr] at hx; exact hx
      · unfold Lane.rxGone at hx; rw [hk] at hx; exact hx
      · exact hh hv hx)
    have hrq : ln.rq = [] ∧ ln.hash.bufs = 0 := by
      rcases hidle with hx | ⟨-, hx, hq, -⟩
      · by_cases hv : cfg.verify = true
        · exact absurd hx (hh hv)
        · exact ⟨(hj.silent (by simpa using hv)).2, by rw [show ln.hash = .left from hx]; rfl⟩
      · exact ⟨hq, by rw [hx]; rfl⟩
    have hb : ln.buffers = ⟨0, 0, 0, 0⟩ := by
      simp [Lane.buffers, hpool, hr, hrq.1, hrq.2, hsq, hk, ReaderPc.fill, ReaderPc.full, SockPc.drain]
    rw [hb] at hwhole
    simp only [Buffers.total] at hwhole
    omega

end Thunderflash.Send
