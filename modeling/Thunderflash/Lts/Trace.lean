/-
Traces of events: when every event of one kind has one of another kind after it.
-/
import Mathlib.Data.List.Basic
import Mathlib.Tactic

namespace Lts

variable {α : Type*} {P Q : α → Prop} {tr l : List α} {x : α}

/-- Every `P` of the trace has a `Q` after it. -/
def Followed (P Q : α → Prop) (tr : List α) : Prop := ∀ pre x post, tr = pre ++ x :: post → P x → ∃ y ∈ post, Q y

theorem Followed.nil : Followed P Q ([] : List α) := by
  rintro pre x post he -
  simp at he

/-- An event that is no `P`. -/
theorem Followed.snoc (h : Followed P Q tr) (hx : ¬ P x) : Followed P Q (tr ++ [x]) := by
  intro pre y post he hy
  rcases List.eq_nil_or_concat' post with rfl | ⟨post, z, rfl⟩
  · obtain ⟨-, hlast⟩ := List.append_inj' he rfl
    cases hlast
    exact absurd hy hx
  · rw [← List.cons_append, ← List.append_assoc] at he
    obtain ⟨rfl, -⟩ := List.append_inj' he rfl
    obtain ⟨q, hq, hQ⟩ := h pre y post rfl hy
    exact ⟨q, List.mem_append_left _ hq, hQ⟩

/-- A `Q` settles everything before it. -/
theorem Followed.close (hx : ¬ P x) (hq : Q x) : Followed P Q (tr ++ [x]) := by
  intro pre y post he hy
  rcases List.eq_nil_or_concat' post with rfl | ⟨post, z, rfl⟩
  · obtain ⟨-, hlast⟩ := List.append_inj' he rfl
    cases hlast
    exact absurd hy hx
  · rw [← List.cons_append, ← List.append_assoc] at he
    obtain ⟨-, hlast⟩ := List.append_inj' he rfl
    cases hlast
    exact ⟨x, List.mem_append_right _ (List.mem_singleton_self x), hq⟩

theorem Followed.append (h : Followed P Q tr) : ∀ {l : List α}, (∀ x ∈ l, ¬ P x) → Followed P Q (tr ++ l) := by
  intro l
  induction l using List.reverseRecOn with
  | nil => intro _; rw [List.append_nil]; exact h
  | append_singleton l x ih =>
    intro hl
    rw [← List.append_assoc]
    exact (ih fun y hy => hl y (List.mem_append_left _ hy)).snoc (hl x (List.mem_append_right _ (List.mem_singleton_self x)))

end Lts
