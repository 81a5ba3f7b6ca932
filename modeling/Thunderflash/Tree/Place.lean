/-
Trees known by what stands at each path, and things put into them one after another, each with the
directories on the way to it. Put at distinct paths, they leave the same tree in any order.
-/
import Mathlib.Data.List.Basic
import Mathlib.Data.List.Nodup
import Mathlib.Tactic

namespace Tree

variable {ν β : Type*} [DecidableEq ν] {dir : β} {t : List ν → Option β} {p : List ν} {x : List ν × Option β}
  {xs ys : List (List ν × Option β)}

/-- Put a value at a path, or a directory where `x` has no value. What is missing on the way becomes a
directory; a directory that is put gives way to what is there. -/
def place (dir : β) (t : List ν → Option β) (x : List ν × Option β) (p : List ν) : Option β :=
  match x.2 with
  | some v => if p = x.1 then some v else if p <+: x.1 then t p <|> some dir else t p
  | none => if p <+: x.1 then t p <|> some dir else t p

/-! ## One by one -/

theorem place_value {v : β} (h : x = (p, some v)) : place dir t x p = some v := by
  subst h
  simp [place]

theorem place_way (hx : ∀ v, x ≠ (p, some v)) (h : p <+: x.1) : place dir t x p = (t p <|> some dir) := by
  obtain ⟨q, o⟩ := x
  cases o with
  | none => exact if_pos h
  | some v =>
    have hne : p ≠ q := by
      rintro rfl
      exact hx v rfl
    simp only [place]
    rw [if_neg hne, if_pos h]

theorem place_off (h : ¬ p <+: x.1) : place dir t x p = t p := by
  have hne : p ≠ x.1 := by
    rintro rfl
    exact h List.prefix_rfl
  obtain ⟨q, o⟩ := x
  cases o with
  | none => exact if_neg h
  | some v =>
    simp only [place]
    rw [if_neg hne, if_neg h]

/-! ## One after another -/

/-- The directory at `p` that something on the list needs. -/
def way (dir : β) (xs : List (List ν × Option β)) (p : List ν) : Option β :=
  if ∃ x ∈ xs, p <+: x.1 then some dir else none

theorem way_of_mem (hx : x ∈ xs) (hp : p <+: x.1) : way dir xs p = some dir := if_pos ⟨x, hx, hp⟩

theorem way_none (h : ∀ x ∈ xs, ¬ p <+: x.1) : way dir xs p = none := by
  apply if_neg
  rintro ⟨x, hx, hp⟩
  exact h x hx hp

theorem way_cons (h : ¬ p <+: x.1) : way dir (x :: xs) p = way dir xs p := by
  by_cases hw : ∃ y ∈ xs, p <+: y.1
  · obtain ⟨y, hy, hp⟩ := hw
    rw [way_of_mem hy hp, way_of_mem (List.mem_cons_of_mem _ hy) hp]
  · rw [way_none fun y hy hp => hw ⟨y, hy, hp⟩]
    apply way_none
    rintro y hy hp
    rcases List.mem_cons.1 hy with rfl | hy
    · exact h hp
    · exact hw ⟨y, hy, hp⟩

theorem way_perm (h : xs.Perm ys) : way dir xs p = way dir ys p := by
  by_cases hw : ∃ y ∈ ys, p <+: y.1
  · obtain ⟨y, hy, hp⟩ := hw
    rw [way_of_mem hy hp, way_of_mem (h.symm.subset hy) hp]
  · rw [way_none fun y hy hp => hw ⟨y, h.subset hy, hp⟩, way_none fun y hy hp => hw ⟨y, hy, hp⟩]

/-- Where no value is put, the directories on the way are all there is. -/
theorem foldl_place_way : ∀ {xs : List (List ν × Option β)} {t : List ν → Option β}, (∀ v, (p, some v) ∉ xs) →
    xs.foldl (place dir) t p = (t p <|> way dir xs p)
  | [], t, _ => by
    rw [way_none (by simp), List.foldl_nil]
    cases t p <;> rfl
  | x :: xs, t, h => by
    obtain ⟨hx, hxs⟩ : (∀ v, x ≠ (p, some v)) ∧ ∀ v, (p, some v) ∉ xs := by
      constructor
      · rintro v rfl
        exact h v (by simp)
      · intro v hv
        exact h v (List.mem_cons_of_mem _ hv)
    rw [List.foldl_cons, foldl_place_way hxs]
    by_cases hp : p <+: x.1
    · rw [place_way hx hp, way_of_mem (List.mem_cons_self ..) hp]
      cases t p <;> rfl
    · rw [place_off hp, way_cons hp]

/-- A value is there at the end, when nothing else is put at its path. -/
theorem foldl_place_value {v : β} : ∀ {xs : List (List ν × Option β)} {t : List ν → Option β}, (xs.map Prod.fst).Nodup →
    (p, some v) ∈ xs → xs.foldl (place dir) t p = some v
  | x :: xs, t, hn, h => by
    obtain ⟨hx, hn⟩ := List.nodup_cons.1 hn
    rw [List.foldl_cons]
    rcases List.mem_cons.1 h with rfl | h
    · have hno : ∀ w, (p, some w) ∉ xs := by
        intro w hw
        exact hx (List.mem_map.2 ⟨_, hw, rfl⟩)
      rw [foldl_place_way hno, place_value rfl]
      rfl
    · exact foldl_place_value hn h

/-- Put at distinct paths, the same things leave the same tree in any order. -/
theorem foldl_place_perm (h : xs.Perm ys) (hn : (xs.map Prod.fst).Nodup) :
    xs.foldl (place dir) t = ys.foldl (place dir) t := by
  have hn' : (ys.map Prod.fst).Nodup := (h.map _).nodup_iff.1 hn
  funext p
  by_cases hv : ∃ v, (p, some v) ∈ xs
  · obtain ⟨v, hv⟩ := hv
    rw [foldl_place_value hn hv, foldl_place_value hn' (h.subset hv)]
  · have hx : ∀ v, (p, some v) ∉ xs := fun v hm => hv ⟨v, hm⟩
    have hy : ∀ v, (p, some v) ∉ ys := fun v hm => hv ⟨v, h.symm.subset hm⟩
    rw [foldl_place_way hx, foldl_place_way hy, way_perm h]

/-- What is there already need not be put: a value at its path, with all that is on the way. -/
theorem foldl_place_sublist (hs : xs.Sublist ys) (hn : (ys.map Prod.fst).Nodup)
    (h : ∀ y ∈ ys, y ∈ xs ∨ ∃ v, y.2 = some v ∧ t y.1 = some v ∧ ∀ p, p <+: y.1 → (t p).isSome) :
    xs.foldl (place dir) t = ys.foldl (place dir) t := by
  have hn' : (xs.map Prod.fst).Nodup := hn.sublist (hs.map _)
  funext p
  by_cases hv : ∃ v, (p, some v) ∈ ys
  · obtain ⟨v, hv⟩ := hv
    rw [foldl_place_value hn hv]
    by_cases hx : (p, some v) ∈ xs
    · exact foldl_place_value hn' hx
    · obtain ⟨w, hw, hp, -⟩ := (h _ hv).resolve_left hx
      cases hw
      have hno : ∀ w, (p, some w) ∉ xs := by
        intro w hw
        obtain rfl : w = v := Option.some.inj (congrArg Prod.snd (List.inj_on_of_nodup_map hn (hs.subset hw) hv rfl))
        exact hx hw
      rw [foldl_place_way hno, show t p = some v from hp]
      rfl
  · have hy : ∀ v, (p, some v) ∉ ys := fun v hm => hv ⟨v, hm⟩
    rw [foldl_place_way fun v hm => hy v (hs.subset hm), foldl_place_way hy]
    by_cases hw : ∃ y ∈ ys, p <+: y.1
    · obtain ⟨y, hm, hp⟩ := hw
      rw [way_of_mem hm hp]
      rcases h y hm with hx | ⟨-, -, -, hall⟩
      · rw [way_of_mem hx hp]
      · obtain ⟨l, hl⟩ := Option.isSome_iff_exists.1 (hall p hp)
        rw [hl]
        rfl
    · rw [way_none fun y hm hp => hw ⟨y, hm, hp⟩, way_none fun y hm hp => hw ⟨y, hs.subset hm, hp⟩]

/-- Put a second time, the same things change nothing. -/
theorem foldl_place_again (hn : (xs.map Prod.fst).Nodup) :
    xs.foldl (place dir) (xs.foldl (place dir) t) = xs.foldl (place dir) t := by
  funext p
  by_cases hv : ∃ v, (p, some v) ∈ xs
  · obtain ⟨v, hv⟩ := hv
    rw [foldl_place_value hn hv, foldl_place_value hn hv]
  · have hno : ∀ v, (p, some v) ∉ xs := fun v hm => hv ⟨v, hm⟩
    rw [foldl_place_way hno, foldl_place_way hno]
    cases t p with
    | some l => rfl
    | none => cases way dir xs p <;> rfl

end Tree
