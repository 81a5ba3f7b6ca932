/-
The sender's side of a session around its lanes: the manifest it offers, the filter its answer
gives, and the dealing of what is left to the flows.
-/
import Thunderflash.Send.Model
import Thunderflash.Wire.Stream
import Thunderflash.Wire.Bitmap

namespace Thunderflash.Send

open Codec

def Item.isFile (item : Item) : Bool := item.entry.kind == .file

/-- Every header in one write, then the terminator. -/
def manifest (items : List Item) : Bytes := (items.map Item.header).flatten ++ Entry.terminator

/-- How many answers the sender reads: only File entries are offered. -/
def offered (items : List Item) : Nat := (items.filter Item.isFile).length

/-- Drop the files the receiver says it already has, counting them as skipped. A short answer
leaves the remainder unskipped. -/
def keepUnskipped : List Item → List Bool → List Item × Stats
  | [], _ => ([], ⟨0, 0, 0, 0⟩)
  | item :: items, bits =>
    if item.entry.kind ≠ .file then
      let (kept, stats) := keepUnskipped items bits
      (item :: kept, stats)
    else if bits.head? = some true then
      let (kept, stats) := keepUnskipped items bits.tail
      (kept, { stats with
        skippedFiles := stats.skippedFiles + 1
        skippedBytes := stats.skippedBytes + item.entry.size.toNat })
    else
      let (kept, stats) := keepUnskipped items bits.tail
      (item :: kept, stats)

/-- Round-robin: the item at index `i` goes to lane `i mod count`. -/
def deal (count : Nat) (items : List Item) : List (List Item) :=
  items.zipIdx.foldl (fun lanes x => lanes.modify (x.2 % count) (· ++ [x.1])) (List.replicate count [])

/-- What `walk` gives: each header is its entry's encoding, and the entry one that has one. -/
def Walked (items : List Item) : Prop := ∀ item ∈ items, item.header = item.entry.encode ∧ item.entry.Framed

theorem makeItem_walked {abs : Bytes} {rel : Str} {kind : Kind} {size : UInt64} {mode : UInt32} {mtime : Int64}
    (h : (makeItem abs rel kind size mode mtime).entry.Framed) : Walked [makeItem abs rel kind size mode mtime] := by
  intro item hi
  rw [List.mem_singleton] at hi
  subst hi
  exact ⟨rfl, h⟩

theorem Walked.manifest_eq {items : List Item} (h : Walked items) :
    manifest items = ((items.map Item.entry).map Entry.encode).flatten ++ Entry.terminator := by
  unfold manifest
  rw [List.map_map]
  congr 2
  exact List.map_congr_left fun item hi => (h item hi).1

theorem Walked.framed {items : List Item} (h : Walked items) : ∀ e ∈ items.map Item.entry, e.Framed := by
  intro e he
  obtain ⟨item, hi, rfl⟩ := List.mem_map.1 he
  exact (h item hi).2

/-! ## The filter -/

/-- The File items for which `held` answers yes. -/
def Item.skips (held : Entry → Bool) (item : Item) : Bool := item.isFile && held item.entry

section Filter

variable {held : Entry → Bool}

/-- One answer for each File entry drops exactly the items answered yes. -/
theorem keepUnskipped_answers (held : Entry → Bool) : ∀ items : List Item,
    (keepUnskipped items (((items.map Item.entry).filter (·.kind == .file)).map held)).1 =
      items.filter fun item => !item.skips held
  | [] => rfl
  | item :: items => by
    have ih := keepUnskipped_answers held items
    by_cases hk : item.entry.kind = .file
    · have hf : item.isFile = true := by simp [Item.isFile, hk]
      rw [List.map_cons, List.filter_cons_of_pos (by simp [hk]), List.map_cons, keepUnskipped, if_neg (by simp [hk])]
      cases hh : held item.entry with
      | true =>
        rw [List.head?_cons, List.tail_cons, if_pos rfl, List.filter_cons_of_neg (by simp [Item.skips, hf, hh])]
        exact ih
      | false =>
        rw [List.head?_cons, List.tail_cons, if_neg (by simp), List.filter_cons_of_pos (by simp [Item.skips, hh])]
        exact congrArg (item :: ·) ih
    · rw [List.map_cons, List.filter_cons_of_neg (by simp [hk]), keepUnskipped, if_pos hk,
        List.filter_cons_of_pos (by simp [Item.skips, Item.isFile, hk])]
      exact congrArg (item :: ·) ih

theorem length_answers (held : Entry → Bool) (items : List Item) :
    (((items.map Item.entry).filter (·.kind == .file)).map held).length = offered items := by
  rw [List.length_map, List.filter_map, List.length_map]
  rfl

end Filter

end Thunderflash.Send
