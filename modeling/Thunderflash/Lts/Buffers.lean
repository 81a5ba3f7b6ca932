/-
The buffers of a pool that go round between a stage that fills them and one that drains them, and
a counter of those on their way: what a step can do to them, and what no step can.
-/
import Mathlib.Tactic

namespace Lts

/-- How many buffers are free, in the hand of the stage that fills them, on their way to the other
and in the hand of the stage that drains them. -/
structure Buffers where
  pool : Nat
  fill : Nat
  queued : Nat
  drain : Nat
  deriving DecidableEq, Repr

namespace Buffers

def total (b : Buffers) : Nat := b.pool + b.fill + b.queued + b.drain

/-- What one step does to the buffers, and by how much it changes the counter; buffers are lost
only when `lost`. -/
inductive Passes (lost : Prop) (b b' : Buffers) : Int → Prop
  | keep : b' = b → Passes lost b b' 0
  | take : 0 < b.pool → b' = { b with pool := b.pool - 1, fill := b.fill + 1 } → Passes lost b b' 0
  | send : 0 < b.fill → b' = { b with fill := b.fill - 1, queued := b.queued + 1 } → Passes lost b b' 1
  | recv : 0 < b.queued → b' = { b with queued := b.queued - 1, drain := b.drain + 1 } → Passes lost b b' (-1)
  | back : 0 < b.drain → b' = { b with drain := b.drain - 1, pool := b.pool + 1 } → Passes lost b b' 0
  /-- The draining stage has no use for it. -/
  | skip : 0 < b.queued → b' = { b with queued := b.queued - 1, pool := b.pool + 1 } → Passes lost b b' (-1)
  | lose : lost → b'.pool ≤ b.pool → b'.fill ≤ b.fill → b'.queued ≤ b.queued → b'.drain ≤ b.drain →
      Passes lost b b' 0

variable {lost : Prop} {b b' : Buffers} {n : Int}

theorem Passes.total_le (h : Passes lost b b' n) : b'.total ≤ b.total := by
  unfold total
  cases h with
  | keep he => rw [he]
  | take _ he | send _ he | recv _ he | back _ he | skip _ he => subst he; dsimp only; omega
  | lose => omega

theorem Passes.total_eq (h : Passes lost b b' n) (hl : ¬ lost) : b'.total = b.total := by
  unfold total
  cases h with
  | keep he => rw [he]
  | take _ he | send _ he | recv _ he | back _ he | skip _ he => subst he; dsimp only; omega
  | lose h => exact absurd h hl

/-- Only a buffer in the draining stage's hand or on its way there returns to the pool. -/
theorem Passes.returned (h : Passes lost b b' n) (hp : b.pool < b'.pool) : 0 < b.queued + b.drain := by
  cases h with
  | keep he => rw [he] at hp; omega
  | take _ he | send _ he | recv _ he => subst he; dsimp only at hp; omega
  | back hd | skip hd => omega
  | lose => omega

/-- The counter is at least the number on their way, and leaves room for the others. -/
structure Counted (depth : Nat) (b : Buffers) (count : Int) : Prop where
  queued : (b.queued : Int) ≤ count
  others : ((b.pool + b.fill + b.drain : Nat) : Int) + count ≤ depth

theorem Counted.passes {depth : Nat} {count : Int} (h : Counted depth b count) (hp : Passes lost b b' n) :
    Counted depth b' (count + n) := by
  obtain ⟨h1, h2⟩ := h
  constructor
  all_goals
    cases hp with
    | keep he => rw [he]; omega
    | take _ he | send _ he | recv _ he | back _ he | skip _ he => subst he; dsimp only; omega
    | lose => omega

theorem Counted.bounds {depth : Nat} {count : Int} (h : Counted depth b count) : 0 ≤ count ∧ count ≤ depth := by
  obtain ⟨h1, h2⟩ := h
  omega

end Buffers

end Lts
