/-
Where the net thread is: every directory it holds open is the one its path names.
-/
import Thunderflash.Recv.Disk

namespace Thunderflash.Recv

open Codec Posix Fs

variable {cfg : Cfg} {c : Choice} {sh sh' : Shared} {fl fl' : Flow} {H H' : Nat → List Name → Prop}

/-- The directory a program point holds is the one at the path it stands for, where `H` says which is. -/
def NetPc.placed (H : Nat → List Name → Prop) : NetPc → Prop
  | .at _ .walkRoot => True
  | .at j (.walkMk done _ _) | .at j (.walkOpen done _ _) => H j.dir done
  | .at j _ => H j.dir j.parents
  | _ => True

structure Placed (H : Nat → List Name → Prop) (fl : Flow) : Prop where
  net : fl.net.placed H
  cache : ∀ ps d, fl.cache = some (ps, d) → H d ps
  born : ∀ t ∈ fl.log.born, H t.parent t.dirs

theorem NetPc.placed.mono {pc : NetPc} (h : pc.placed H) (hm : ∀ d ps, H d ps → H' d ps) : pc.placed H' := by
  cases pc with
  | «at» j st => cases st <;> first | trivial | exact hm _ _ h
  | _ => trivial

theorem Placed.mono (h : Placed H fl) (hm : ∀ d ps, H d ps → H' d ps) : Placed H' fl :=
  ⟨h.net.mono hm, fun ps d hc => hm _ _ (h.cache ps d hc), fun t ht => hm _ _ (h.born t ht)⟩

theorem Placed.init : Placed H (.init cfg) where
  net := trivial
  cache := by simp [Flow.init]
  born := by simp [Flow.init, Log.init]

namespace Flow

variable {j : Job}

theorem fail_placed (h : Placed H fl) (e : Err) : Placed H (fl.fail e) := ⟨trivial, h.cache, h.born⟩

theorem goto_placed {st : Stage} (h : Placed H fl) (hj : (NetPc.at j st).placed H) : Placed H (fl.goto j st) :=
  ⟨hj, h.cache, h.born⟩

theorem dispatch_placed (h : Placed H fl) (hj : H j.dir j.parents) : Placed H (fl.dispatch j) := by
  unfold dispatch
  split
  · exact goto_placed h hj
  · exact goto_placed h hj
  · exact goto_placed h hj
  · exact fail_placed h _

theorem arrive_placed (h : Placed H fl) (hj : H j.dir j.parents) : Placed H (fl.arrive j) := by
  unfold arrive
  refine dispatch_placed ⟨h.net, fun ps d hc => ?_, h.born⟩ hj
  cases hc
  exact hj

theorem complete_placed (h : Placed H fl) (j : Job) : Placed H (fl.complete j) := ⟨trivial, h.cache, h.born⟩

theorem made_placed (h : Placed H fl) (hj : H j.dir j.parents) : Placed H (fl.made cfg j) := by
  unfold made
  split
  · exact goto_placed h hj
  · exact complete_placed h _

theorem pump_placed (h : Placed H fl) (hj : H j.dir j.parents) (r : Nat) : Placed H (fl.pump cfg j r) := by
  unfold pump
  refine goto_placed h ?_
  split
  · exact hj
  · split <;> exact hj

theorem linkText_placed (h : Placed H fl) (hj : H j.dir j.parents) (t : Bytes) : Placed H (fl.linkText j t) := by
  unfold linkText
  split
  · exact goto_placed h hj
  · exact fail_placed h _

theorem start_placed (h : Placed H fl) (e : Entry) : Placed H (fl.start cfg e) := by
  unfold start
  split
  · exact fail_placed h _
  · dsimp only
    have h0 : ∀ hs, Placed H { fl with log := { fl.log with heard := hs } } := fun _ => ⟨h.net, h.cache, h.born⟩
    split
    · rename_i ps d hc
      split
      · rename_i hp
        subst hp
        exact dispatch_placed (h0 _) (h.cache _ _ hc)
      · exact goto_placed (h0 _) trivial
    · exact goto_placed (h0 _) trivial

theorem consume_placed (h : Placed H fl) (rest part trailer : Bytes) :
    Placed H { fl.consume rest with log := { (fl.consume rest).log with part, trailer } } := ⟨h.net, h.cache, h.born⟩

theorem push_placed (h : Placed H fl) (m : Msg) : Placed H (fl.push cfg m) := by
  refine ⟨by rw [push_net]; exact h.net, ?_, by rw [push_log]; exact h.born⟩
  unfold push
  dsimp only
  split <;> exact h.cache

theorem send_placed {m : Msg} {next gone : Flow → Flow} (h : Placed H fl) (hs : fl.send cfg m next gone = some fl')
    (hn : Placed H (fl.push cfg m) → Placed H (next (fl.push cfg m))) (hg : Placed H (gone fl)) : Placed H fl' := by
  rcases send_some hs with ⟨-, rfl⟩ | ⟨-, -, rfl⟩
  · exact hg
  · exact hn (push_placed h m)

theorem netLocal_placed (h : Placed H fl) (hroot : H cfg.root []) (hs : fl.netLocal cfg c sh = some (sh', fl')) :
    Placed H fl' := by
  have hp := h.net
  unfold netLocal at hs
  split at hs
  case h_1 =>
    split at hs <;> cases hs
    · exact fail_placed h _
    · exact ⟨by dsimp only; split <;> trivial, h.cache, h.born⟩
  case h_2 =>
    split at hs
    · cases hs; exact fail_placed h _
    · split at hs <;> cases hs; exact fail_placed h _
    · cases hs; exact fail_placed h _
    · cases hs; exact ⟨trivial, h.cache, h.born⟩
    · cases hs; exact start_placed (consume_placed h _ _ _) _
  case h_3 j hn =>
    split at hs <;> cases hs
    · exact fail_placed h _
    · rename_i hps; exact arrive_placed h (by dsimp only; rw [hps]; exact hroot)
    · exact goto_placed h hroot
  case h_4 j hn =>
    rw [hn] at hp
    obtain ⟨r, hr, hs⟩ := Option.map_eq_some_iff.1 hs
    cases r <;> cases hs
    · exact fail_placed h _
    · dsimp only
      split
      · exact ⟨hp, h.cache, h.born⟩
      · exact linkText_placed (consume_placed h _ _ _) hp _
  case h_5 j target hn =>
    rw [hn] at hp
    obtain ⟨r, hr, hs⟩ := Option.map_eq_some_iff.1 hs
    cases r <;> cases hs
    · exact fail_placed h _
    · dsimp only
      split
      · exact linkText_placed (consume_placed h _ _ _) hp _
      · exact ⟨trivial, h.cache, h.born⟩
  case h_6 => split at hs <;> cases hs; exact fail_placed h _
  case h_7 j t hn =>
    rw [hn] at hp
    obtain ⟨fl1, h1, hs⟩ := Option.map_eq_some_iff.1 hs
    cases hs
    exact send_placed h h1 (fun h => pump_placed h hp _) (goto_placed h hp)
  case h_8 j r hn =>
    rw [hn] at hp
    split at hs
    · cases hs; exact ⟨hp, h.cache, h.born⟩
    · split at hs <;> cases hs; exact fail_placed h _
  case h_9 j r hn =>
    rw [hn] at hp
    split at hs
    · cases hs; exact fail_placed h _
    · split at hs
      · cases hs; exact ⟨hp, h.cache, h.born⟩
      · split at hs <;> cases hs; exact fail_placed h _
  case h_10 j r bytes hn =>
    rw [hn] at hp
    obtain ⟨fl1, h1, hs⟩ := Option.map_eq_some_iff.1 hs
    cases hs
    exact send_placed h h1 (fun h => pump_placed h hp _) (fail_placed h _)
  case h_11 j hn =>
    rw [hn] at hp
    obtain ⟨fl1, h1, hs⟩ := Option.map_eq_some_iff.1 hs
    cases hs
    exact send_placed h h1 (fun h => goto_placed h hp) (fail_placed h _)
  case h_12 j hn =>
    rw [hn] at hp
    split at hs
    · cases hs; exact ⟨hp, h.cache, h.born⟩
    · split at hs <;> cases hs; exact fail_placed h _
    · cases hs
  case h_13 j d hn =>
    rw [hn] at hp
    obtain ⟨r, hr, hs⟩ := Option.map_eq_some_iff.1 hs
    cases r <;> cases hs
    · exact fail_placed h _
    · dsimp only
      split
      · exact ⟨hp, h.cache, h.born⟩
      · exact ⟨trivial, h.cache, h.born⟩
  case h_14 j hn =>
    obtain ⟨fl1, h1, hs⟩ := Option.map_eq_some_iff.1 hs
    cases hs
    exact send_placed h h1 (fun h => complete_placed h _) (fail_placed h _)
  case h_15 => cases hs

theorem born_placed {t : InFlight} (h : Placed H fl) (hj : H j.dir j.parents) (hp : t.parent = j.dir)
    (hd : t.dirs = j.parents) : Placed H ((fl.logBorn t).goto j (.sendBegin t)) := by
  refine ⟨hj, h.cache, fun u hu => ?_⟩
  rcases List.mem_append.1 hu with hu | hu
  · exact h.born u hu
  · rw [List.mem_singleton] at hu
    subst hu
    rw [hp, hd]; exact hj

theorem netResume_placed {r : Except Errno Nat} (h : Placed H fl) (hpc : PcOk cfg fl.log fl.net)
    (hopen : ∀ d n i ps, netRequest cfg c fl.net = some (.openDir d n) → r = .ok i → H d ps → H i (ps ++ [n])) :
    Placed H (fl.netResume cfg c r sh).2 := by
  have hp := h.net
  unfold netResume
  split
  case h_1 =>
    split
    · exact ⟨trivial, h.cache, h.born⟩
    · exact fail_placed h _
  case h_2 j done comp todo hn =>
    rw [hn] at hp
    split
    · exact goto_placed h hp
    · exact goto_placed h hp
    · exact fail_placed h _
  case h_3 j done comp todo hn =>
    rw [hn] at hp hpc
    have hps : j.parents = done ++ comp :: todo := hpc.2.2
    split
    · refine arrive_placed h ?_
      dsimp only
      rw [hps]
      exact hopen _ _ _ _ (by rw [hn]; rfl) rfl hp
    · exact goto_placed h (hopen _ _ _ _ (by rw [hn]; rfl) rfl hp)
    · exact fail_placed h _
  case h_4 j hn =>
    rw [hn] at hp
    split
    · exact goto_placed h hp
    · exact goto_placed h hp
    · exact fail_placed h _
  case h_5 j hn => rw [hn] at hp; exact made_placed h hp
  case h_6 j target hn => rw [hn] at hp; exact goto_placed h hp
  case h_7 j target hn =>
    rw [hn] at hp
    split
    · exact goto_placed h hp
    · exact fail_placed h _
  case h_8 j hn => rw [hn] at hp; exact made_placed h hp
  case h_9 j hn =>
    split
    · exact complete_placed h _
    · exact fail_placed h _
  case h_10 j tries hn =>
    rw [hn] at hp
    split
    · exact born_placed h hp rfl rfl
    · exact goto_placed h hp
    · exact goto_placed h hp
    · exact fail_placed h _
  case h_11 j again hn =>
    rw [hn] at hp
    split
    · exact born_placed h hp rfl rfl
    · exact goto_placed h hp
    · exact fail_placed h _
  case h_12 j hn =>
    rw [hn] at hp
    split
    · exact goto_placed h hp
    · exact fail_placed h _
  case h_13 => exact ⟨trivial, h.cache, h.born⟩
  case h_14 => exact h

end Flow

/-- A step of a flow keeps its directories where they are, when a directory opened in one at `ps`
is the one at the path below `ps`. -/
theorem FlowStep.placed (h : FlowStep cfg c sh fl sh' fl') (hi : FlowInv cfg fl) (hp : Placed H fl)
    (hroot : H cfg.root [])
    (hopen : ∀ d n i ps, n.length ≤ NAME_MAX → sh.fs.entry d n = some i → sh.fs.leaf i = some .dir → H d ps →
      H i (ps ++ [n])) : Placed H fl' := by
  cases h with
  | net h =>
    unfold Flow.netStep at h
    split at h
    · rename_i sys hreq
      obtain rfl := congrArg Prod.snd (Option.some.inj h)
      refine Flow.netResume_placed hp hi.net.pc fun d n i ps hr hok => ?_
      obtain rfl := Option.some.inj (hreq.symm.trans hr)
      obtain ⟨-, hlen, hn, hl⟩ := exec_openDir (call_ok hok).2.exec
      exact hopen d n i ps hlen hn hl
    · exact Flow.netLocal_placed hp hroot h
  | hash _ h =>
    obtain ⟨_, _, _, _, _, _, rfl⟩ := hashStep_only h
    exact ⟨hp.net, hp.cache, hp.born⟩
  | writer h =>
    obtain ⟨_, _, _, _, _, _, rfl⟩ := writerStep_only h
    exact ⟨hp.net, hp.cache, hp.born⟩

end Thunderflash.Recv
