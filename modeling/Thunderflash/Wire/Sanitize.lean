/-
The string-level half of escape prevention: which paths `sanitize` accepts, the parts it gives, and
that these parts are a normal form of the path.
-/
import Thunderflash.Wire.Entry

namespace Thunderflash

open Codec Posix

/-! ## Segments -/

/-- The segments of a path, between its slashes. -/
def segments (path : Bytes) : List Bytes := path.splitOn SLASH

/-- A segment that is kept as a part. -/
def kept (part : Bytes) : Bool := part ≠ [] && part ≠ [DOT]

theorem kept_iff (part : Bytes) : kept part = true ↔ part ≠ [] ∧ part ≠ [DOT] := by simp [kept]

/-- The loop over the segments: a `..` anywhere is refused, and else the others are kept in order. -/
theorem parts_eq : ∀ l : List Bytes, parts l = if [DOT, DOT] ∈ l then .error .parentRef else .ok (l.filter kept)
  | [] => rfl
  | part :: rest => by
    have ih := parts_eq rest
    unfold parts
    by_cases hskip : part = [] ∨ part = [DOT]
    · have hne : [DOT, DOT] ≠ part := by
        rintro rfl
        rcases hskip with h | h <;> cases h
      have hk : kept part = false := by
        rcases hskip with rfl | rfl <;> rfl
      simp only [if_pos hskip, ih, List.mem_cons, hne, false_or, List.filter_cons, hk, Bool.false_eq_true, if_false]
    · have hk : kept part = true := by
        rw [kept_iff]
        exact not_or.1 hskip
      rw [if_neg hskip]
      by_cases hup : part = [DOT, DOT]
      · rw [if_pos hup, if_pos (by simp [hup])]
      · rw [if_neg hup, ih]
        by_cases hin : [DOT, DOT] ∈ rest
        · rw [if_pos hin, if_pos (List.mem_cons_of_mem _ hin)]
          rfl
        · have hno : [DOT, DOT] ∉ part :: rest := by
            rw [List.mem_cons, not_or]
            exact ⟨Ne.symm hup, hin⟩
          rw [if_neg hin, if_neg hno, List.filter_cons_of_pos hk]
          rfl

/-! ## Acceptance -/

/-- The paths `sanitize` lets through. -/
structure Acceptable (path : Bytes) : Prop where
  short : path.length ≤ MAX_PATH_LEN
  nul : 0 ∉ path
  relative : path.head? ≠ some SLASH
  parent : [DOT, DOT] ∉ segments path
  named : ∃ part ∈ segments path, part ≠ [] ∧ part ≠ [DOT]

/-- What `sanitize` gives is what the loop gives, behind the early exits. -/
theorem sanitize_eq_ok {path : Bytes} {ps : List Name} : sanitize path = .ok ps ↔
    Acceptable path ∧ ps = (segments path).filter kept := by
  have hloop := parts_eq (segments path)
  unfold segments at hloop
  constructor
  · intro h
    unfold sanitize at h
    split at h
    · cases h
    rename_i hshort
    split at h
    · cases h
    rename_i hnul
    split at h
    · cases h
    rename_i hrel
    rw [hloop] at h
    split at h
    · cases h
    rename_i hempty
    split at h
    · cases h
    rename_i hparent
    cases h
    rw [if_neg hparent] at hempty
    have hne : (segments path).filter kept ≠ [] := fun he => hempty (congrArg Except.ok he)
    obtain ⟨part, hpart⟩ := List.exists_mem_of_ne_nil _ hne
    obtain ⟨hmem, hk⟩ := List.mem_filter.1 hpart
    exact ⟨⟨by omega, hnul, hrel, hparent, part, hmem, (kept_iff part).1 hk⟩, rfl⟩
  · rintro ⟨ha, rfl⟩
    obtain ⟨part, hmem, hk⟩ := ha.named
    have hin : part ∈ (segments path).filter kept := List.mem_filter.2 ⟨hmem, (kept_iff part).2 hk⟩
    have hparent : [DOT, DOT] ∉ path.splitOn SLASH := ha.parent
    have hshort := ha.short
    unfold sanitize
    rw [if_neg (by omega), if_neg ha.nul, if_neg ha.relative, hloop, if_neg hparent]
    unfold segments at hin ⊢
    split
    · rename_i he
      injection he with he
      rw [he] at hin
      cases hin
    · rfl

/-! ## The normal form -/

theorem joinPath_cons_cons (n m : Name) (ps : List Name) : joinPath (n :: m :: ps) = n ++ SLASH :: joinPath (m :: ps) := by
  simp [joinPath, List.intercalate_cons_cons]

/-- Joined again, the parts are no longer than the path they were taken from. -/
theorem joinPath_length_le {ps qs : List Name} (h : ps.Sublist qs) : (joinPath ps).length ≤ (joinPath qs).length := by
  -- with the slash behind each part counted, leaving one out leaves its length out
  have hlen : ∀ {l : List Name}, l ≠ [] → (joinPath l).length + 1 = (l.map fun n => n.length + 1).sum := by
    intro l
    induction l with
    | nil => exact fun h => absurd rfl h
    | cons n l ih =>
      intro _
      cases l with
      | nil => simp [joinPath]
      | cons m l =>
        have ih := ih (by simp)
        rw [joinPath_cons_cons, List.map_cons, List.sum_cons, ← ih, List.length_append, List.length_cons]
        omega
  by_cases hp : ps = []
  · subst hp
    exact Nat.zero_le _
  · have hq : qs ≠ [] := by
      rintro rfl
      exact hp (List.sublist_nil.1 h)
    have hsum : (ps.map fun n => n.length + 1).sum ≤ (qs.map fun n => n.length + 1).sum :=
      (h.map _).sum_le_sum fun x _ => Nat.zero_le x
    have h1 := hlen hp
    have h2 := hlen hq
    omega

theorem joinPath_segments (path : Bytes) : joinPath (segments path) = path := List.intercalate_splitOn SLASH

/-- `sanitize` succeeds exactly on the acceptable paths; it gives the segments but the empty ones and
the dots, in order, each of them proper; and joined again they are accepted and give themselves. -/
theorem sanitize_spec (path : Bytes) :
    ((∃ ps, sanitize path = .ok ps) ↔ Acceptable path) ∧
    ∀ ps, sanitize path = .ok ps →
      ps = (segments path).filter kept ∧ (∀ n ∈ ps, Proper n) ∧ sanitize (joinPath ps) = .ok ps := by
  constructor
  · constructor
    · rintro ⟨ps, h⟩
      exact (sanitize_eq_ok.1 h).1
    · intro ha
      exact ⟨_, sanitize_eq_ok.2 ⟨ha, rfl⟩⟩
  · intro ps h
    obtain ⟨ha, he⟩ := sanitize_eq_ok.1 h
    obtain ⟨hne, hp⟩ := sanitize_ok h
    refine ⟨he, hp, sanitize_joinPath hne hp ?_⟩
    calc (joinPath ps).length
        ≤ (joinPath (segments path)).length := by
          rw [he]
          exact joinPath_length_le List.filter_sublist
      _ = path.length := by rw [joinPath_segments]
      _ ≤ MAX_PATH_LEN := ha.short

end Thunderflash
