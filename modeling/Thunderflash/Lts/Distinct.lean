/-
Families of lists in which no element stands twice, neither in one list nor in two.
-/
import Mathlib.Data.List.Nodup
import Mathlib.Logic.Function.Basic
import Mathlib.Tactic

namespace Lts

variable {ι α β : Type*}

structure Distinct (L : ι → List α) : Prop where
  nodup : ∀ i, (L i).Nodup
  apart : ∀ {i k x}, x ∈ L i → x ∈ L k → i = k

theorem Distinct.of_sublist {L L' : ι → List α} (h : Distinct L') (hs : ∀ i, (L i).Sublist (L' i)) : Distinct L :=
  ⟨fun i => (h.nodup i).sublist (hs i), fun hi hk => h.apart ((hs _).mem hi) ((hs _).mem hk)⟩

theorem Distinct.of_map {f : α → β} {L : ι → List α} (h : Distinct fun i => (L i).map f) : Distinct L :=
  ⟨fun i => (h.nodup i).of_map f, fun hi hk => h.apart (List.mem_map_of_mem hi) (List.mem_map_of_mem hk)⟩

/-- Elements with the same key are the same. -/
theorem Distinct.eq {f : α → β} {L : ι → List α} (h : Distinct fun i => (L i).map f) {i k : ι} {x y : α}
    (hx : x ∈ L i) (hy : y ∈ L k) (he : f x = f y) : i = k ∧ x = y := by
  have hik : i = k := h.apart (List.mem_map_of_mem hx) (by rw [he]; exact List.mem_map_of_mem hy)
  subst hik
  exact ⟨rfl, List.inj_on_of_nodup_map (h.nodup i) hx hy he⟩

/-- A family that is the same but for one more element of list `i`. -/
theorem Distinct.push {L L' : ι → List α} {i : ι} {x : α} (h : Distinct L) (hi : L' i = L i ++ [x])
    (ho : ∀ k, k ≠ i → L' k = L k) (hx : ∀ k, x ∉ L k) : Distinct L' := by
  have hmem : ∀ {k y}, y ∈ L' k → y ∈ L k ∨ (y = x ∧ k = i) := by
    intro k y hy
    by_cases hk : k = i
    · subst hk
      rw [hi, List.mem_append, List.mem_singleton] at hy
      exact hy.imp_right fun h => ⟨h, rfl⟩
    · rw [ho k hk] at hy; exact .inl hy
  refine ⟨fun k => ?_, fun {k l y} hk hl => ?_⟩
  · by_cases hk : k = i
    · subst hk
      rw [hi, List.nodup_append]
      exact ⟨h.nodup k, by simp, fun a ha b hb => by rw [List.mem_singleton] at hb; subst hb; exact fun he => hx k (he ▸ ha)⟩
    · rw [ho k hk]; exact h.nodup k
  · rcases hmem hk with hk | ⟨rfl, rfl⟩ <;> rcases hmem hl with hl | ⟨hy, rfl⟩
    · exact h.apart hk hl
    · exact absurd (hy ▸ hk) (hx _)
    · exact absurd hl (hx _)
    · rfl

/-- Of a family with finitely many lists that are not empty, their concatenation tells. -/
theorem Distinct.of_range {L : ℕ → List α} {n : ℕ} (h0 : ∀ i, n ≤ i → L i = []) (h : ((List.range n).flatMap L).Nodup) :
    Distinct L := by
  rw [List.nodup_flatMap] at h
  have hlt : ∀ {i x}, x ∈ L i → i < n := by
    intro i x hx
    by_contra hge
    rw [h0 i (by omega)] at hx
    cases hx
  have hpair : ∀ {i k x}, i < k → x ∈ L i → x ∈ L k → False := by
    intro i k x hik hi hk
    have := List.pairwise_iff_getElem.1 h.2 i k (by simpa using hlt hi) (by simpa using hlt hk) hik
    simp only [List.getElem_range] at this
    exact this hi hk
  refine ⟨fun i => ?_, fun {i k x} hi hk => ?_⟩
  · by_cases hi : i < n
    · exact h.1 i (List.mem_range.2 hi)
    · rw [h0 i (by omega)]; exact List.nodup_nil
  · rcases Nat.lt_trichotomy i k with hlt | he | hlt
    · exact (hpair hlt hi hk).elim
    · exact he
    · exact (hpair hlt hk hi).elim

end Lts
