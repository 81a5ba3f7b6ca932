/-
Deterministic labelled graphs and the paths of a rooted one: following a list of labels, a tree
part in which every directory has one parent edge, and what changing a single edge does to the
node each path names.
-/
import Mathlib.Data.List.Induction
import Mathlib.Data.List.Basic
import Mathlib.Tactic

namespace Posix

section Paths

variable {α ν : Type*}

/-- The node a list of labels leads to, from `a`. -/
def resolve (E : α → ν → Option α) : α → List ν → Option α
  | a, [] => some a
  | a, n :: p => (E a n).bind fun b => resolve E b p

@[simp] theorem resolve_nil (E : α → ν → Option α) (a : α) : resolve E a [] = some a := rfl

theorem resolve_cons (E : α → ν → Option α) (a : α) (n : ν) (p : List ν) :
    resolve E a (n :: p) = (E a n).bind fun b => resolve E b p := rfl

theorem resolve_append (E : α → ν → Option α) : ∀ (p q : List ν) (a : α),
    resolve E a (p ++ q) = (resolve E a p).bind fun b => resolve E b q
  | [], q, a => rfl
  | n :: p, q, a => by
    simp only [List.cons_append, resolve_cons, Option.bind_assoc]
    cases E a n with
    | none => rfl
    | some b => simpa using resolve_append E p q b

theorem resolve_snoc (E : α → ν → Option α) (p : List ν) (n : ν) (a : α) :
    resolve E a (p ++ [n]) = (resolve E a p).bind fun b => E b n := by
  rw [resolve_append]
  cases resolve E a p with
  | none => rfl
  | some b => simp [resolve_cons]

/-- The graph below `r` is a tree of directories: only directories have edges, each has one
parent edge, and none leads back to `r`. -/
structure Rooted (E : α → ν → Option α) (D : α → Prop) (r : α) : Prop where
  root : D r
  dir : ∀ {a n b}, E a n = some b → D a
  parent : ∀ {a n a' n' b}, D b → E a n = some b → E a' n' = some b → a = a' ∧ n = n'
  top : ∀ {p}, resolve E r p = some r → p = []

/-- A directory has one path from the root. -/
theorem Rooted.inj {E : α → ν → Option α} {D : α → Prop} {r : α} (hR : Rooted E D r) :
    ∀ {p q : List ν} {a : α}, D a → resolve E r p = some a → resolve E r q = some a → p = q := by
  intro p
  induction p using List.reverseRecOn with
  | nil =>
    intro q a _ hp hq
    cases hp
    exact (hR.top hq).symm
  | append_singleton p n ih =>
    intro q a ha hp hq
    rcases List.eq_nil_or_concat' q with rfl | ⟨q, m, rfl⟩
    · cases hq
      exact hR.top hp
    · rw [resolve_snoc, Option.bind_eq_some_iff] at hp hq
      obtain ⟨b, hb, hn⟩ := hp
      obtain ⟨c, hc, hm⟩ := hq
      obtain ⟨rfl, rfl⟩ := hR.parent ha hn hm
      rw [ih (hR.dir hn) hb hc]

/-- What changing the edge `n` of the directory at `ps` does to every path, when neither the node
it led to nor the one it leads to now has edges of its own. -/
theorem Rooted.resolve_set [DecidableEq ν] {E E' : α → ν → Option α} {D : α → Prop} {r d : α}
    {ps : List ν} {n : ν} (hR : Rooted E D r) (hD : D d) (hd : resolve E r ps = some d)
    (hsame : ∀ e m, e ≠ d ∨ m ≠ n → E' e m = E e m)
    (hold : ∀ i, E d n = some i → ∀ m, E i m = none)
    (hnew : ∀ i, E' d n = some i → ∀ m, E' i m = none) (p : List ν) :
    resolve E' r p = if p = ps ++ [n] then E' d n else resolve E r p := by
  induction p using List.reverseRecOn with
  | nil => simp
  | append_singleton q m ih =>
    rw [resolve_snoc, ih]
    by_cases hq : q = ps ++ [n]
    · -- below the changed edge nothing is left, before and after
      subst hq
      have hlen : ps ++ [n] ++ [m] ≠ ps ++ [n] := by simp
      rw [if_pos rfl, if_neg hlen, resolve_snoc, resolve_snoc, hd]
      have h1 : ((E' d n).bind fun b => E' b m) = none := by
        cases h : E' d n with
        | none => rfl
        | some i => exact hnew i h m
      have h2 : ((E d n).bind fun b => E b m) = none := by
        cases h : E d n with
        | none => rfl
        | some i => exact hold i h m
      simpa [h1] using h2.symm
    · rw [if_neg hq, resolve_snoc]
      cases hr : resolve E r q with
      | none =>
        have : q ++ [m] ≠ ps ++ [n] := by
          intro he
          obtain ⟨rfl, -⟩ := List.append_inj' he rfl
          rw [hd] at hr; cases hr
        simp [this]
      | some e =>
        by_cases hc : q ++ [m] = ps ++ [n]
        · obtain ⟨rfl, hm⟩ := List.append_inj' hc rfl
          cases hm
          rw [hd] at hr; cases hr
          simp
        · have hne : e ≠ d ∨ m ≠ n := by
            by_contra hcon
            push Not at hcon
            obtain ⟨rfl, rfl⟩ := hcon
            exact hc (by rw [hR.inj hD hr hd])
          simp [hc, hsame e m hne]

/-- The same when the edge leads to a node that had no edges and has none. -/
theorem Rooted.set [DecidableEq ν] {E E' : α → ν → Option α} {D D' : α → Prop} {r d : α} {ps : List ν} {n : ν}
    (hR : Rooted E D r) (hD : D d) (hd : resolve E r ps = some d)
    (hsame : ∀ e m, e ≠ d ∨ m ≠ n → E' e m = E e m)
    (hold : ∀ i, E d n = some i → ∀ m, E i m = none)
    (hnew : ∀ i, E' d n = some i → i ≠ r ∧ (∀ m, E' i m = none) ∧ (D' i → ∀ e m, E e m ≠ some i))
    (hDD : ∀ a, D a → D' a) (hDE : ∀ a e m, E e m = some a → D' a → D a) : Rooted E' D' r := by
  have hres := hR.resolve_set hD hd hsame hold (fun i h => (hnew i h).2.1)
  refine ⟨hDD r hR.root, ?_, ?_, ?_⟩
  · intro a m b hab
    by_cases h : a = d ∧ m = n
    · obtain ⟨rfl, rfl⟩ := h; exact hDD _ hD
    · rw [hsame a m (by tauto)] at hab; exact hDD _ (hR.dir hab)
  · intro a m a' m' b hb h1 h2
    by_cases hm : a = d ∧ m = n <;> by_cases hm' : a' = d ∧ m' = n
    · exact ⟨hm.1.trans hm'.1.symm, hm.2.trans hm'.2.symm⟩
    · obtain ⟨rfl, rfl⟩ := hm
      rw [hsame a' m' (by tauto)] at h2
      exact absurd h2 ((hnew b h1).2.2 hb a' m')
    · obtain ⟨rfl, rfl⟩ := hm'
      rw [hsame a m (by tauto)] at h1
      exact absurd h1 ((hnew b h2).2.2 hb a m)
    · rw [hsame a m (by tauto)] at h1
      rw [hsame a' m' (by tauto)] at h2
      exact hR.parent (hDE b a m h1 hb) h1 h2
  · intro p hp
    rw [hres] at hp
    split at hp
    · exact absurd rfl (hnew r hp).1
    · exact hR.top hp

end Paths

end Posix
