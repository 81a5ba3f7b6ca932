/-
A stage of a pipeline, fed from a queue, that turns each message into at most one: what has come
out is always what the stage makes of a prefix of what went in.
-/
import Mathlib.Data.List.Basic
import Mathlib.Tactic

namespace Lts

section Pipe

variable {σ μ ν : Type*}

/-- What a stage makes of a list of messages, and its state after them. -/
def through (f : σ → μ → σ × Option ν) : σ → List μ → σ × List ν
  | s, [] => (s, [])
  | s, m :: ms => ((through f (f s m).1 ms).1, (f s m).2.toList ++ (through f (f s m).1 ms).2)

variable {f : σ → μ → σ × Option ν} {s0 s : σ} {sent q : List μ} {out : List ν}

theorem through_append : ∀ (ms ms' : List μ) (s : σ), through f s (ms ++ ms') =
    ((through f (through f s ms).1 ms').1, (through f s ms).2 ++ (through f (through f s ms).1 ms').2)
  | [], _, _ => rfl
  | m :: ms, ms', s => by simp [through, through_append ms ms']

theorem through_snoc (ms : List μ) (m : μ) (s : σ) : through f s (ms ++ [m]) =
    ((f (through f s ms).1 m).1, (through f s ms).2 ++ (f (through f s ms).1 m).2.toList) := by
  simp [through_append, through]

/-- `sent` has gone into the stage's queue `q`, and from what it has taken it made `out` and came
to state `s`. -/
def Fed (f : σ → μ → σ × Option ν) (s0 : σ) (sent q : List μ) (s : σ) (out : List ν) : Prop :=
  ∃ seen, sent = seen ++ q ∧ through f s0 seen = (s, out)

theorem Fed.init : Fed f s0 [] [] s0 [] := ⟨[], rfl, rfl⟩

theorem Fed.push (h : Fed f s0 sent q s out) (m : μ) : Fed f s0 (sent ++ [m]) (q ++ [m]) s out := by
  obtain ⟨seen, rfl, ht⟩ := h
  exact ⟨seen, by simp, ht⟩

theorem Fed.take {m : μ} (h : Fed f s0 sent (m :: q) s out) :
    Fed f s0 sent q (f s m).1 (out ++ (f s m).2.toList) := by
  obtain ⟨seen, rfl, ht⟩ := h
  refine ⟨seen ++ [m], by simp, ?_⟩
  rw [through_snoc, ht]

/-- With its queue empty the stage has seen everything. -/
theorem Fed.drained (h : Fed f s0 sent [] s out) : through f s0 sent = (s, out) := by
  obtain ⟨seen, rfl, ht⟩ := h
  simpa using ht

theorem Fed.out_isPrefix (h : Fed f s0 sent q s out) : out <+: (through f s0 sent).2 := by
  obtain ⟨seen, rfl, ht⟩ := h
  rw [through_append, ht]
  exact List.prefix_append ..

theorem isPrefix_push {l : List ν} (h : l <+: (through f s0 sent).2) (m : μ) :
    l <+: (through f s0 (sent ++ [m])).2 := by
  rw [through_snoc]
  exact h.trans (List.prefix_append ..)

end Pipe

end Lts
