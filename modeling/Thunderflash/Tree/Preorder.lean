/-
Preorder listings of trees whose nodes are known by the names that lead to them: every node comes
right before those below it, siblings come in order, and no path comes twice.
-/
import Mathlib.Data.List.Basic
import Mathlib.Data.List.Nodup
import Mathlib.Tactic

namespace Tree

variable {ν : Type*} {lt : ν → ν → Prop} {p q x : List ν} {L : List (List ν)} {kids : List (ν × List (List ν))}

/-- A listing of what is at path `p` and below it: nothing, or the path and then the listings of its
children in order of their names. -/
inductive Listing (lt : ν → ν → Prop) : List ν → List (List ν) → Prop
  | skip {p : List ν} : Listing lt p []
  | node {p : List ν} {kids : List (ν × List (List ν))} : (kids.map Prod.fst).Pairwise lt →
      (∀ k ∈ kids, Listing lt (p ++ [k.1]) k.2) → Listing lt p (p :: kids.flatMap Prod.snd)

/-- What is below `q` is listed right behind it, and nowhere else. -/
def Heads (q : List ν) (L : List (List ν)) : Prop :=
  ∃ before block after, L = before ++ q :: block ++ after ∧ (∀ x ∈ block, q <+: x ∧ x ≠ q) ∧
    ∀ x ∈ before ++ after, ¬ q <+: x

/-- Of two siblings whose parent meets `P`, the one listed first has the smaller name. -/
def Sorted (lt : ν → ν → Prop) (P : List ν → Prop) (L : List (List ν)) : Prop :=
  L.Pairwise fun a b => ∀ q n m, a = q ++ [n] → b = q ++ [m] → P q → lt n m

/-- Listings of trees with different names under `p`. -/
structure Forest (lt : ν → ν → Prop) (p : List ν) (kids : List (ν × List (List ν))) : Prop where
  names : (kids.map Prod.fst).Nodup
  each : ∀ k ∈ kids, Listing lt (p ++ [k.1]) k.2

/-! ## Prefixes -/

theorem Listing.under (h : Listing lt p L) : ∀ x ∈ L, p <+: x := by
  induction h with
  | skip => nofun
  | node _ _ ih =>
    intro x hx
    rcases List.mem_cons.1 hx with rfl | hx
    · exact List.prefix_rfl
    · obtain ⟨k, hk, hx⟩ := List.mem_flatMap.1 hx
      exact (List.prefix_append _ _).trans (ih k hk x hx)

/-- The parent of a path through `k` that is not `p` goes through `k` too. -/
theorem through_parent {k n : ν} {r : List ν} (h : p ++ k :: r = q ++ [n]) (hq : p <+: q ∧ q ≠ p) :
    ∃ c, q = p ++ k :: c := by
  obtain ⟨⟨c, rfl⟩, hne⟩ := hq
  cases c with
  | nil => exact absurd (List.append_nil p) hne
  | cons d c =>
    rw [List.append_assoc, List.append_cancel_left_eq, List.cons_append] at h
    rw [(List.cons.inj h).1]
    exact ⟨c, rfl⟩

/-- What is listed for a child goes through the child's name. -/
theorem Forest.through (h : Forest lt p kids) {k : ν × List (List ν)} (hk : k ∈ kids) (hx : x ∈ k.2) :
    ∃ r, x = p ++ k.1 :: r := by
  obtain ⟨r, rfl⟩ := (h.each k hk).under x hx
  exact ⟨r, by rw [List.append_assoc, List.singleton_append]⟩

theorem Forest.tail {k : ν × List (List ν)} (h : Forest lt p (k :: kids)) : Forest lt p kids :=
  ⟨(List.nodup_cons.1 h.names).2, fun j hj => h.each j (List.mem_cons_of_mem _ hj)⟩

/-- No path is below two children. -/
theorem Forest.apart {k : ν × List (List ν)} (h : Forest lt p (k :: kids)) {r : List ν} (hx : p ++ k.1 :: r <+: x) :
    x ∉ kids.flatMap Prod.snd := by
  intro hmem
  obtain ⟨j, hj, hxj⟩ := List.mem_flatMap.1 hmem
  obtain ⟨r', rfl⟩ := h.tail.through hj hxj
  have hname : k.1 = j.1 := by
    have hr := (List.prefix_append_right_inj p).1 hx
    exact (List.cons_prefix_cons.1 hr).1
  exact (List.nodup_cons.1 h.names).1 (hname ▸ List.mem_map_of_mem hj)

/-! ## Forests -/

theorem Forest.nodup : ∀ {kids : List (ν × List (List ν))}, Forest lt p kids → (∀ k ∈ kids, k.2.Nodup) →
    (kids.flatMap Prod.snd).Nodup
  | [], _, _ => List.nodup_nil
  | k :: kids, h, hn => by
    rw [List.flatMap_cons]
    refine List.Nodup.append (hn k (List.mem_cons_self ..)) (nodup h.tail fun j hj => hn j (List.mem_cons_of_mem _ hj)) ?_
    intro x hx
    obtain ⟨r, rfl⟩ := h.through (List.mem_cons_self ..) hx
    exact h.apart (List.prefix_refl _)

theorem Forest.heads : ∀ {kids : List (ν × List (List ν))}, Forest lt p kids → (∀ k ∈ kids, ∀ q ∈ k.2, Heads q k.2) →
    ∀ q ∈ kids.flatMap Prod.snd, Heads q (kids.flatMap Prod.snd)
  | [], _, _, q, hq => by cases hq
  | k :: kids, h, hh, q, hq => by
    rw [List.flatMap_cons] at hq ⊢
    rcases List.mem_append.1 hq with hq | hq
    · obtain ⟨before, block, after, he, hb, ho⟩ := hh k (List.mem_cons_self ..) q hq
      obtain ⟨r, rfl⟩ := h.through (List.mem_cons_self ..) hq
      refine ⟨before, block, after ++ kids.flatMap Prod.snd, by rw [he]; simp, hb, fun x hx => ?_⟩
      rw [← List.append_assoc] at hx
      rcases List.mem_append.1 hx with hx | hx
      · exact ho x hx
      · exact fun hp => h.apart hp hx
    · obtain ⟨before, block, after, he, hb, ho⟩ := heads h.tail (fun j hj => hh j (List.mem_cons_of_mem _ hj)) q hq
      refine ⟨k.2 ++ before, block, after, by rw [he]; simp, hb, fun x hx => ?_⟩
      rw [List.append_assoc] at hx
      rcases List.mem_append.1 hx with hx | hx
      · obtain ⟨r, rfl⟩ := h.through (List.mem_cons_self ..) hx
        -- `q` is below another child than `x`
        obtain ⟨j, hj, hqj⟩ := List.mem_flatMap.1 hq
        obtain ⟨r', rfl⟩ := h.tail.through hj hqj
        intro hp
        have hname := (List.cons_prefix_cons.1 ((List.prefix_append_right_inj p).1 hp)).1
        exact (List.nodup_cons.1 h.names).1 (hname ▸ List.mem_map_of_mem hj)
      · exact ho x hx

/-- Below the children everything is in order. -/
theorem Forest.sorted : ∀ {kids : List (ν × List (List ν))}, Forest lt p kids →
    (∀ k ∈ kids, Sorted lt (p ++ [k.1] <+: ·) k.2) → Sorted lt (fun q => p <+: q ∧ q ≠ p) (kids.flatMap Prod.snd)
  | [], _, _ => List.Pairwise.nil
  | k :: kids, h, hs => by
    rw [List.flatMap_cons]
    refine List.pairwise_append.2 ⟨?_, sorted h.tail fun j hj => hs j (List.mem_cons_of_mem _ hj), ?_⟩
    · refine (hs k (List.mem_cons_self ..)).imp_of_mem fun {a b} ha _ hlt q n m han hbm hq => ?_
      obtain ⟨r, rfl⟩ := h.through (List.mem_cons_self ..) ha
      obtain ⟨c, rfl⟩ := through_parent han hq
      exact hlt _ n m han hbm ⟨c, by simp⟩
    · intro a ha b hb q n m han hbm hq
      obtain ⟨r, rfl⟩ := h.through (List.mem_cons_self ..) ha
      obtain ⟨c, rfl⟩ := through_parent han hq
      refine absurd hb (h.apart (r := c) ?_)
      rw [hbm]
      exact List.prefix_append _ _

/-- The children themselves are in order as well. -/
theorem Forest.sorted_top : ∀ {kids : List (ν × List (List ν))}, Forest lt p kids → (kids.map Prod.fst).Pairwise lt →
    (∀ k ∈ kids, k.2.Nodup) → Sorted lt (· = p) (kids.flatMap Prod.snd)
  | [], _, _, _ => List.Pairwise.nil
  | k :: kids, h, ho, hn => by
    obtain ⟨hfirst, ho⟩ := List.pairwise_cons.1 ho
    rw [List.flatMap_cons]
    refine List.pairwise_append.2 ⟨?_, sorted_top h.tail ho fun j hj => hn j (List.mem_cons_of_mem _ hj), ?_⟩
    · refine (hn k (List.mem_cons_self ..)).imp_of_mem fun {a b} ha hb hne q n m han hbm hq => ?_
      obtain ⟨r, rfl⟩ := h.through (List.mem_cons_self ..) ha
      obtain ⟨r', rfl⟩ := h.through (List.mem_cons_self ..) hb
      subst hq
      rw [List.append_cancel_left_eq] at han hbm
      obtain ⟨-, rfl⟩ := List.cons.inj han
      obtain ⟨-, rfl⟩ := List.cons.inj hbm
      exact absurd rfl hne
    · intro a ha b hb q n m han hbm hq
      obtain ⟨r, rfl⟩ := h.through (List.mem_cons_self ..) ha
      obtain ⟨j, hj, hb⟩ := List.mem_flatMap.1 hb
      obtain ⟨r', rfl⟩ := h.tail.through hj hb
      subst hq
      rw [List.append_cancel_left_eq] at han hbm
      rw [← (List.cons.inj han).1, ← (List.cons.inj hbm).1]
      exact hfirst _ (List.mem_map_of_mem hj)

/-! ## Listings -/

section

variable (hlt : ∀ n, ¬ lt n n)

include hlt

theorem Listing.forest (ho : (kids.map Prod.fst).Pairwise lt) (hk : ∀ k ∈ kids, Listing lt (p ++ [k.1]) k.2) :
    Forest lt p kids :=
  ⟨List.nodup_iff_pairwise_ne.2 (ho.imp fun h => by rintro rfl; exact hlt _ h), hk⟩

theorem Listing.nodup (h : Listing lt p L) : L.Nodup := by
  induction h with
  | skip => exact List.nodup_nil
  | @node p kids ho hk ih =>
    have hf := Listing.forest hlt ho hk
    refine List.nodup_cons.2 ⟨fun hmem => ?_, hf.nodup ih⟩
    obtain ⟨k, hk', hp⟩ := List.mem_flatMap.1 hmem
    obtain ⟨r, hr⟩ := hf.through hk' hp
    simp at hr

theorem Listing.heads (h : Listing lt p L) : ∀ q ∈ L, Heads q L := by
  induction h with
  | skip => nofun
  | @node p kids ho hk ih =>
    have hf := Listing.forest hlt ho hk
    intro q hlist
    rcases List.mem_cons.1 hlist with rfl | hq
    · refine ⟨[], kids.flatMap Prod.snd, [], by simp, fun x hx => ?_, nofun⟩
      obtain ⟨k, hk', hx⟩ := List.mem_flatMap.1 hx
      obtain ⟨r, rfl⟩ := hf.through hk' hx
      exact ⟨List.prefix_append _ _, by simp⟩
    · obtain ⟨before, block, after, he, hb, ho⟩ := hf.heads ih q hq
      refine ⟨p :: before, block, after, by rw [he]; simp, hb, fun x hx => ?_⟩
      rw [List.cons_append] at hx
      rcases List.mem_cons.1 hx with rfl | hx
      · obtain ⟨k, hk', hqk⟩ := List.mem_flatMap.1 hq
        obtain ⟨r, rfl⟩ := hf.through hk' hqk
        intro hp
        have := hp.length_le
        simp at this
      · exact ho x hx

theorem Listing.sorted (h : Listing lt p L) : Sorted lt (p <+: ·) L := by
  induction h with
  | skip => exact List.Pairwise.nil
  | @node p kids ho hk ih =>
    have hf := Listing.forest hlt ho hk
    refine List.pairwise_cons.2 ⟨fun b _ q n m han _ hq => ?_, ?_⟩
    · have := hq.length_le
      rw [han] at this
      simp at this
    · have htop := hf.sorted_top ho fun k hk' => Listing.nodup hlt (hk k hk')
      refine ((hf.sorted ih).and htop).imp fun {a b} h q n m han hbm hq => ?_
      by_cases he : q = p
      · exact h.2 q n m han hbm he
      · exact h.1 q n m han hbm ⟨hq, he⟩

end

end Tree
