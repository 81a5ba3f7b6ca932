/-
What a flow has heard, also when it has given up since: the entries it has completed, and perhaps the one whose
header stands behind them in what it has read.
-/
import Thunderflash.Recv.Dirs

namespace Thunderflash.Recv

open Codec Posix Lts

variable {cfg : Cfg} {c : Choice} {sh sh' : Shared} {fl fl' : Flow} {s : State} {fs0 : Fs} {x : Entry × List Name}

/-- The entries completed. -/
def Log.ended (log : Log) : List (Entry × List Name) := log.done.map fun fr => (fr.entry, fr.comps)

inductive Hearing (log : Log) : Prop
  | all : log.heard = log.ended → Hearing log
  /-- One is under way, or was when the flow failed. -/
  | next (x : Entry × List Name) : log.heard = log.ended ++ [x] → x.1.Framed → encodeAll log.done ++ x.1.encode <+: log.got → Hearing log

/-- Every entry heard has an encoding. -/
theorem Hearing.framed {log : Log} (h : Hearing log) (hl : LogOk cfg log) (hx : x ∈ log.heard) : x.1.Framed := by
  have hended : x ∈ log.ended → x.1.Framed := by
    intro hx
    obtain ⟨fr, hfr, rfl⟩ := List.mem_map.1 hx
    exact (hl.whole fr hfr).framed
  cases h with
  | all he =>
    rw [he] at hx
    exact hended hx
  | next y he hy _ =>
    rw [he, List.mem_append, List.mem_singleton] at hx
    rcases hx with hx | rfl
    · exact hended hx
    · exact hy

/-- A flow that has not failed has heard what its net thread has come to. -/
theorem Hearing.of_inv (hi : FlowInv cfg fl) (hn : ∀ e, fl.net ≠ .finished (.error e)) : Hearing fl.log := by
  have hpc := hi.net.pc
  cases hk : fl.net with
  | openRoot | registerRoot | decode =>
    rw [hk] at hpc
    exact .all hpc.2.1
  | «at» j st =>
    rw [hk] at hpc
    obtain ⟨hj, -⟩ := hpc
    refine .next _ hj.heard hj.framed ?_
    rw [hj.got, Frame.encode]
    exact (List.prefix_append_right_inj _).2 (List.prefix_append ..)
  | finished r =>
    cases r with
    | ok u =>
      rw [hk] at hpc
      exact .all hpc.2.1
    | error e => exact absurd hk (hn e)

namespace Flow

variable {j : Job}

theorem made_heard (fl : Flow) (j : Job) : (fl.made cfg j).log.heard = fl.log.heard := by
  unfold made
  split <;> rfl

theorem pump_heard (fl : Flow) (j : Job) (n : Nat) : (fl.pump cfg j n).log.heard = fl.log.heard := by
  unfold pump
  split
  · rfl
  · split <;> rfl

theorem send_heard {m : Msg} {next gone : Flow → Flow} (h : fl.send cfg m next gone = some fl')
    (hn : ∀ fl, (next fl).log.heard = fl.log.heard) (hg : ∀ fl, (gone fl).log.heard = fl.log.heard) :
    fl'.log.heard = fl.log.heard := by
  rcases send_some h with ⟨-, rfl⟩ | ⟨-, -, rfl⟩
  · exact hg fl
  · rw [hn, push_log]

/-- An entry is heard where it is decoded. -/
theorem netLocal_heard (h : fl.netLocal cfg c sh = some (sh', fl')) : fl'.log.heard = fl.log.heard ∨
    ∃ e rest, fl.net = .decode ∧ Entry.decode fl.wire = .ok (some e) rest ∧ fl' = (fl.consume rest).start cfg e := by
  have hsend : ∀ {m : Msg} {next gone : Flow → Flow}, (fl.send cfg m next gone).map (sh, ·) = some (sh', fl') →
      (∀ fl, (next fl).log.heard = fl.log.heard) → (∀ fl, (gone fl).log.heard = fl.log.heard) →
      fl'.log.heard = fl.log.heard := by
    intro m next gone hs hn hg
    obtain ⟨fl1, h1, h2⟩ := Option.map_eq_some_iff.1 hs
    cases h2
    exact send_heard h1 hn hg
  unfold netLocal at h
  split at h
  case h_1 => split at h <;> cases h <;> exact .inl rfl
  case h_2 hnet =>
    split at h
    · cases h; exact .inl rfl
    · split at h <;> cases h; exact .inl rfl
    · cases h; exact .inl rfl
    · cases h; exact .inl rfl
    · rename_i e rest _ hdec
      cases h
      exact .inr ⟨e, rest, hnet, hdec, rfl⟩
  case h_3 =>
    left
    split at h <;> cases h
    · rfl
    · rw [arrive_log]
    · rfl
  case h_4 =>
    left
    obtain ⟨r, hr, h⟩ := Option.map_eq_some_iff.1 h
    cases r <;> cases h
    · rfl
    · dsimp only
      split
      · rfl
      · rw [linkText_log]; rfl
  case h_5 =>
    left
    obtain ⟨r, hr, h⟩ := Option.map_eq_some_iff.1 h
    cases r <;> cases h
    · rfl
    · dsimp only
      split
      · rw [linkText_log]; rfl
      · rfl
  case h_6 => split at h <;> cases h; exact .inl rfl
  case h_7 => exact .inl (hsend h (pump_heard · _ _) fun _ => rfl)
  case h_8 =>
    left
    split at h
    · cases h; rfl
    · split at h <;> cases h; rfl
  case h_9 =>
    left
    split at h
    · cases h; rfl
    · split at h
      · cases h; rfl
      · split at h <;> cases h; rfl
  case h_10 => exact .inl (hsend h (pump_heard · _ _) fun _ => rfl)
  case h_11 => exact .inl (hsend h (fun _ => rfl) fun _ => rfl)
  case h_12 =>
    left
    split at h
    · cases h; rfl
    · split at h <;> cases h; rfl
    · cases h
  case h_13 =>
    left
    obtain ⟨r, hr, h⟩ := Option.map_eq_some_iff.1 h
    cases r <;> cases h
    · rfl
    · dsimp only
      split <;> rfl
  case h_14 => exact .inl (hsend h (fun _ => rfl) fun _ => rfl)
  case h_15 => cases h

theorem netResume_heard (fl : Flow) (r : Except Errno Nat) : (fl.netResume cfg c r sh).2.log.heard = fl.log.heard := by
  unfold netResume
  split
  case h_3 =>
    split
    · rw [arrive_log]
    · rfl
    · rfl
  case h_5 | h_8 => exact made_heard _ _
  case h_6 | h_13 | h_14 => rfl
  all_goals split <;> rfl

theorem start_heard (fl : Flow) (e : Entry) : (fl.start cfg e).log.heard = fl.log.heard ∨
    ∃ comps, (fl.start cfg e).log.heard = fl.log.heard ++ [(e, comps)] := by
  unfold start
  split
  · exact .inl rfl
  · rename_i comps _
    refine .inr ⟨comps, ?_⟩
    dsimp only
    split
    · split
      · rw [dispatch_log]
      · rfl
    · rfl

end Flow

theorem Hearing.grows {log log' : Log} (h : Hearing log) (hh : log'.heard = log.heard) (hd : log'.done = log.done)
    (hg : log.got <+: log'.got) : Hearing log' := by
  cases h with
  | all he => exact .all (by rw [hh, he, Log.ended, Log.ended, hd])
  | next y he hy hw => exact .next y (by rw [hh, he, Log.ended, Log.ended, hd]) hy (by rw [hd]; exact hw.trans hg)

theorem FlowStep.heard (h : FlowStep cfg c sh fl sh' fl') (hi : FlowInv cfg fl) (ih : Hearing fl.log) : Hearing fl'.log := by
  have hgot := h.grows.got
  cases h with
  | net hs =>
    by_cases hfail : ∃ e, fl'.net = .finished (.error e)
    · obtain ⟨e, hfail⟩ := hfail
      -- a step that fails completes nothing
      have hdone : fl'.log.done = fl.log.done := by
        cases Flow.netStep_turn hs with
        | on hd => exact hd
        | found _ he => rw [he]; rfl
        | stamped _ he | linked _ he =>
          rw [he] at hfail
          unfold Flow.made at hfail
          split at hfail <;> cases hfail
        | completed _ hn =>
          rw [hn] at hfail
          cases hfail
      unfold Flow.netStep at hs
      split at hs
      · obtain rfl := congrArg Prod.snd (Option.some.inj hs)
        exact ih.grows (Flow.netResume_heard fl _) hdone hgot
      · rcases Flow.netLocal_heard hs with he | ⟨e, rest, hnet, hdec, rfl⟩
        · exact ih.grows he hdone hgot
        · -- the header has just been consumed, behind the frames completed
          have hpc := hi.net.pc
          rw [hnet] at hpc
          obtain ⟨hw, hfr⟩ := Entry.decode_some hdec
          have hread : (fl.consume rest).log.got = encodeAll fl.log.done ++ e.encode := by
            show fl.log.got ++ fl.wire.take (fl.wire.length - rest.length) = _
            rw [hpc.2.2, hw]
            simp
          have hstart : (fl.consume rest).log.Grows ((fl.consume rest).start cfg e).log := Flow.start_grows _ e
          have hsays : ((fl.consume rest).start cfg e).log.heard = fl.log.heard ∨
              ∃ comps, ((fl.consume rest).start cfg e).log.heard = fl.log.heard ++ [(e, comps)] := Flow.start_heard _ e
          rcases hsays with he | ⟨comps, he⟩
          · exact ih.grows he hdone hgot
          · refine .next (e, comps) ?_ hfr ?_
            · rw [he, Log.ended, hdone]
              exact congrArg (· ++ [(e, comps)]) hpc.2.1
            · rw [hdone, ← hread]
              exact hstart.got
    · exact .of_inv ((FlowStep.net hs).inv hi) fun e he => hfail ⟨e, he⟩
  | hash _ h =>
    obtain ⟨_, _, _, _, _, _, rfl⟩ := hashStep_only h
    exact ih.grows rfl rfl hgot
  | writer h =>
    obtain ⟨_, _, _, _, _, _, rfl⟩ := writerStep_only h
    exact ih.grows rfl rfl hgot

/-- What a flow has heard, in every state. -/
theorem heard_inv {ok : State → Act → State → Prop} (h : Reach (step cfg) ok (.init cfg fs0) s) (i : Nat) :
    Hearing (s.flow i).log := by
  have hall : FlowInv cfg (s.flow i) ∧ Hearing (s.flow i).log := by
    refine flow_invariant (I := fun fl => FlowInv cfg fl ∧ Hearing fl.log) h ⟨.init cfg, .all rfl⟩
      (fun fl wire eof hi => ⟨hi.1.wire wire eof, hi.2⟩) ?_ i
    rintro c sh fl sh' fl' hst ⟨hi, ih⟩
    exact ⟨hst.inv hi, hst.heard hi ih⟩
  exact hall.2

end Thunderflash.Recv
