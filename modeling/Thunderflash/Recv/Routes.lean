/-
What the writer is handed, message by message: for each file one `Begin`, its chunks and one
`EndFile`, and of the file under way a beginning of that.
-/
import Thunderflash.Recv.Steps

namespace Thunderflash.Recv

open Codec Posix Lts

variable {cfg : Cfg} {c : Choice} {sh sh' : Shared} {fl fl' : Flow} {fs0 : Fs} {s : State}

/-! ## Routes -/

/-- A file as it goes to the writer: its token and its chunks. -/
abbrev Route := InFlight × List Bytes

/-- The messages of a file, up to its `EndFile` and with it. -/
def Route.opened (r : Route) : List Msg := .begin r.1 :: r.2.map .data

def Route.closed (r : Route) : List Msg := r.opened ++ [.endFile]

/-- The file and its contents. -/
def Route.file (r : Route) : InFlight × Bytes := (r.1, r.2.flatten)

/-- These are the messages of whole files, and then of one that is still open. -/
structure Routed (out : List Msg) (x : Tally) (rs : List Route) (cur : Option Route) : Prop where
  out : out = (rs.map Route.closed).flatten ++ (cur.map Route.opened).getD []
  files : x.files = rs.map Route.file
  current : x.current = cur.map Route.file

/-- What has been sent comes to the writer as routes. -/
def Routing (cfg : Cfg) (sent : List Msg) : Prop := ∃ rs cur, Routed (sunk cfg sent).2 (tally sent) rs cur

theorem Routing.nil (cfg : Cfg) : Routing cfg [] := ⟨[], none, rfl, rfl, rfl⟩

section

variable {sent : List Msg}

/-- What the writer gets of a message. -/
theorem sunk_out {m : Msg} (h : m ≠ .finish) : (sunk cfg (sent ++ [m])).2 = (sunk cfg sent).2 ++ [m] := by
  rw [sunk_snoc]
  unfold stage
  split
  · cases m <;> first | rfl | exact absurd rfl h
  · rfl

theorem Routing.begin (h : Routing cfg sent) (hc : (tally sent).current = none) (t : InFlight) :
    Routing cfg (sent ++ [.begin t]) := by
  obtain ⟨rs, cur, hout, hfiles, hcur⟩ := h
  rw [hc] at hcur
  cases cur with
  | some r => cases hcur
  | none =>
    refine ⟨rs, some (t, []), ?_, ?_, ?_⟩
    · rw [sunk_out (by simp), hout]
      simp [Route.opened]
    · rw [tally_snoc]
      exact hfiles
    · rw [tally_snoc]
      rfl

theorem Routing.data (h : Routing cfg sent) {f : InFlight × Bytes} (hc : (tally sent).current = some f) (bytes : Bytes) :
    Routing cfg (sent ++ [.data bytes]) := by
  obtain ⟨rs, cur, hout, hfiles, hcur⟩ := h
  rw [hc] at hcur
  cases cur with
  | none => cases hcur
  | some r =>
    refine ⟨rs, some (r.1, r.2 ++ [bytes]), ?_, ?_, ?_⟩
    · rw [sunk_out (by simp), hout]
      simp [Route.opened]
    · rw [tally_snoc]
      exact hfiles
    · obtain rfl : f = r.file := Option.some.inj hcur
      rw [tally_snoc]
      simp [Tally.next, hc, Route.file]

theorem Routing.endFile (h : Routing cfg sent) {f : InFlight × Bytes} (hc : (tally sent).current = some f) :
    Routing cfg (sent ++ [.endFile]) := by
  obtain ⟨rs, cur, hout, hfiles, hcur⟩ := h
  rw [hc] at hcur
  cases cur with
  | none => cases hcur
  | some r =>
    refine ⟨rs ++ [r], none, ?_, ?_, ?_⟩
    · rw [sunk_out (by simp), hout]
      simp [Route.closed]
    · obtain rfl : f = r.file := Option.some.inj hcur
      rw [tally_snoc]
      simp [Tally.next, hc, hfiles]
    · rw [tally_snoc]
      simp [Tally.next, hc]

theorem Routing.finish (h : Routing cfg sent) (hv : cfg.verify = true) : Routing cfg (sent ++ [.finish]) := by
  obtain ⟨rs, cur, hout, hfiles, hcur⟩ := h
  refine ⟨rs, cur, ?_, ?_, ?_⟩
  · rw [sunk_snoc]
    unfold stage
    rw [if_pos hv]
    simpa using hout
  · rw [tally_snoc]
    exact hfiles
  · rw [tally_snoc]
    exact hcur

end

theorem Routing.netStep (hn : NetInv cfg fl) (h : Routing cfg fl.log.sent) (hs : fl.netStep cfg c sh = some (sh', fl')) :
    Routing cfg fl'.log.sent := by
  obtain ⟨-, -, hm⟩ := netStep_cases hs
  rcases hm with hm | ha
  · cases hm with
    | goes hg => rw [hg.sent]; exact h
    | takeBuf _ _ he => subst he; exact h
    | reply _ _ he => subst he; exact h
    | back _ he => subst he; exact h
    | @push j st m hpc hm _ _ hg _ =>
      rw [hg.sent, Flow.push_log]
      have hok := hn.pc
      rw [hpc] at hok
      obtain ⟨-, hok⟩ := hok
      cases st <;> cases hm
      · exact h.begin hok.2.2.1 _
      · obtain ⟨-, -, -, p, -, ⟨t, -, hcur, -⟩, -⟩ := hok
        exact h.data hcur _
      · exact h.finish hok.2.1
      · obtain ⟨-, -, ⟨t, -, hcur, -⟩, -⟩ := hok
        exact h.endFile hcur
  · rw [ha.sent]; exact h

theorem routing_inv {ok : State → Act → State → Prop} (h : Reach (step cfg) ok (.init cfg fs0) s) (i : Nat) :
    Routing cfg (s.flow i).log.sent := by
  refine (flow_invariant (I := fun fl => FlowInv cfg fl ∧ Routing cfg fl.log.sent) h ⟨.init cfg, .nil cfg⟩ ?_ ?_ i).2
  · exact fun fl wire eof ⟨hi, hr⟩ => ⟨hi.wire _ _, hr⟩
  · rintro c sh fl sh' fl' hf ⟨hi, hr⟩
    refine ⟨hf.inv hi, ?_⟩
    cases hf with
    | net h => exact hr.netStep hi.net h
    | hash _ h =>
      obtain ⟨_, _, _, _, _, _, rfl⟩ := hashStep_only h
      exact hr
    | writer h =>
      obtain ⟨_, _, _, _, _, _, rfl⟩ := writerStep_only h
      exact hr

/-- With no file open, the writer has been handed each file completed in order: one `Begin`, the
payload in chunks and one `EndFile`, and nothing else. -/
theorem Routing.files (h : Routing cfg fl.log.sent) (hi : FlowInv cfg fl) (ht : (sunk cfg fl.log.sent).2 = fl.log.taken)
    (hq : (tally fl.log.sent).current = none) : ∃ rs : List Route, fl.log.taken = (rs.map Route.closed).flatten ∧
      List.Forall₂ (fun r fr => Delivered r.file fr) rs (fl.log.done.filter Frame.isFile) := by
  obtain ⟨rs, cur, hout, hfiles, hcur⟩ := h
  rw [hq] at hcur
  cases cur with
  | some r => cases hcur
  | none =>
    refine ⟨rs, by rw [← ht, hout]; simp, ?_⟩
    have hall := hi.net.log.files
    rw [hfiles, List.forall₂_map_left_iff] at hall
    exact hall

end Thunderflash.Recv
