/-
From the trees named on the command line to the tree that stands at the destination: an acknowledged
session into an empty directory makes a copy, and one that is repeated changes nothing.
-/
import Thunderflash.Session.Delivered
import Thunderflash.Send.Walk

namespace Thunderflash.Session

open Codec Posix Lts

open Send (Item Root SourceTree Records parcel walk)

variable {x : Setup} {fs0 : Fs} {s : State} {content : Item → Bytes} {data : List Name → Bytes} {items : List Item}
  {roots : List Root} {item : Item} {st : Stats} {p : List Name} {t : SourceTree} {L : List (List Name × SourceTree)}

/-! ## What the sources show -/

/-- What a node that is sent looks like, when the file at it holds `bytes`. -/
def leafOf (bytes : Bytes) : SourceTree → Option Leaf
  | .dir .. => some .dir
  | .file .. => some (.file bytes)
  | .symlink _ target => some (.symlink target)
  | .special _ => none

/-- What the sources have at a path that begins with a root's last component. -/
inductive Stands (data : List Name → Bytes) (roots : List Root) : List Name → Leaf → Prop
  | base : Stands data roots [] .dir
  | node {r : Root} {p : List Name} {t : SourceTree} {l : Leaf} : r ∈ roots → (p, t) ∈ r.source.listed [r.name] →
      leafOf (data p) t = some l → Stands data roots p l

/-- Paths and link targets that fit into a header. -/
def Fits (roots : List Root) : Prop :=
  ∀ r ∈ roots, ∀ y ∈ r.source.listed [r.name], (joinPath y.1).length ≤ MAX_PATH_LEN ∧
    ∀ info target, y.2 = .symlink info target → target.length ≤ MAX_PATH_LEN

/-- The sender's reads find what `walk` saw: files with these bytes, and links with their targets. -/
structure Unchanged (content : Item → Bytes) (data : List Name → Bytes) (roots : List Root) (items : List Item) : Prop where
  file : ∀ r ∈ roots, ∀ p info len, (p, SourceTree.file info len) ∈ r.source.listed [r.name] →
    (data p).length = len.toNat ∧ ∀ item ∈ items, landing item = p → content item = data p
  link : ∀ r ∈ roots, ∀ p info target, (p, SourceTree.symlink info target) ∈ r.source.listed [r.name] →
    ∀ item ∈ items, landing item = p → content item = target

/-! ## The items of the sources -/

theorem mem_zip_get {α β : Type*} {l : List α} {m : List β} {i : Nat} (hl : i < l.length) (hm : i < m.length) :
    (l[i], m[i]) ∈ l.zip m := by
  rw [List.mem_iff_getElem]
  exact ⟨i, by simp [hl, hm], by simp⟩

section Walked

variable (hw : Send.Walk roots L items) (hfit : Fits roots)

include hw

theorem listed_node {y : List Name × SourceTree} : y ∈ L ↔ ∃ r ∈ roots, y ∈ r.source.listed [r.name] := by
  rw [hw.once.mem_iff, List.mem_flatMap]

include hfit

/-- An item lands where its node is. -/
theorem landing_node {y : List Name × SourceTree} (hz : (y, item) ∈ L.zip items) : landing item = y.1 := by
  obtain ⟨r, -, hrec⟩ := List.forall₂_iff_zip.1 hw.records |>.2 hz
  obtain ⟨r', hr', hy⟩ := (listed_node hw).1 (List.of_mem_zip hz).1
  have hlen : item.entry.path.bytes.length ≤ MAX_PATH_LEN := by
    rw [hrec.path]
    exact (hfit r' hr' y hy).1
  unfold landing
  rw [hw.sanitized y item hz hlen]

theorem landing_paths : items.map landing = L.map Prod.fst := by
  refine List.ext_getElem (by simpa using hw.records.length_eq.symm) fun i h1 h2 => ?_
  have hL : i < L.length := by simpa using h2
  have hi : i < items.length := by simpa using h1
  simpa using landing_node hw hfit (mem_zip_get hL hi)

theorem landing_nodup : (items.map landing).Nodup := by
  rw [landing_paths hw hfit]
  have hbytes : (items.map fun it => it.entry.path.bytes).Nodup := by
    have hinj : Function.Injective Str.bytes := by
      rintro ⟨a, ha⟩ ⟨b, hb⟩ rfl
      rfl
    have := hw.paths.map hinj
    rwa [List.map_map] at this
  have hjoin : (items.map fun it => it.entry.path.bytes) = (L.map Prod.fst).map joinPath := by
    rw [Send.records_paths hw.records, List.map_map]
    rfl
  rw [hjoin] at hbytes
  exact hbytes.of_map

theorem items_visited : Visited items := by
  have hnode : ∀ item ∈ items, ∃ y ∈ L, ∃ r, Records r y item := by
    intro item hitem
    obtain ⟨i, hi, rfl⟩ := List.mem_iff_getElem.1 hitem
    have hL : i < L.length := by rw [hw.records.length_eq]; exact hi
    obtain ⟨r, -, hrec⟩ := List.forall₂_iff_zip.1 hw.records |>.2 (mem_zip_get hL hi)
    exact ⟨L[i], List.getElem_mem hL, r.path, hrec⟩
  constructor
  · intro item hitem
    obtain ⟨y, hy, r, hrec⟩ := hnode item hitem
    obtain ⟨r', hr', hyr⟩ := (listed_node hw).1 hy
    obtain ⟨hpath, htarget⟩ := hfit r' hr' y hyr
    refine ⟨hrec.header, ?_, ?_, ?_⟩
    · intro hk
      have hsends := hrec.sends
      rw [hk] at hsends
      cases hk' : y.2 <;> rw [hk'] at hsends <;> cases hsends
    · rw [hrec.path]
      exact lt_of_le_of_lt hpath (by decide)
    · intro hk
      have hsends := hrec.sends
      rw [hk] at hsends
      cases hk' : y.2 with
      | symlink info target =>
        rw [hk'] at hsends
        obtain hsize : UInt64.ofNat target.length = item.entry.size := congrArg Prod.snd (Option.some.inj hsends)
        rw [← hsize, UInt64.toNat_ofNat']
        exact (Nat.mod_le ..).trans (htarget info target hk')
      | _ => rw [hk'] at hsends; cases hsends
  · intro item hitem hk
    obtain ⟨y, -, r, hrec⟩ := hnode item hitem
    have hsends := hrec.sends
    rw [hk] at hsends
    cases hk' : y.2 with
    | dir info children =>
      rw [hk'] at hsends
      exact (congrArg Prod.snd (Option.some.inj hsends)).symm
    | _ => rw [hk'] at hsends; cases hsends

/-- A directory's item puts nothing of its own. -/
theorem planted_dir {y : List Name × SourceTree} {info : Send.Meta} {children : List (Send.FName × SourceTree)}
    (hz : (y, item) ∈ L.zip items) (hk : y.2 = .dir info children) : planted content item = (y.1, none) := by
  obtain ⟨r, -, hrec⟩ := List.forall₂_iff_zip.1 hw.records |>.2 hz
  have hsends := hrec.sends
  rw [hk] at hsends
  have hkind : Kind.dir = item.entry.kind := congrArg Prod.fst (Option.some.inj hsends)
  rw [planted, landing_node hw hfit hz, ← hkind]

/-- The item of a file or link puts what the source shows. -/
theorem planted_leaf (hun : Unchanged content data roots items) {y : List Name × SourceTree} {l : Leaf}
    (hz : (y, item) ∈ L.zip items) (hl : leafOf (data y.1) y.2 = some l) (hne : l ≠ .dir) :
    planted content item = (y.1, some l) := by
  obtain ⟨r, -, hrec⟩ := List.forall₂_iff_zip.1 hw.records |>.2 hz
  obtain ⟨hy, hitem⟩ := List.of_mem_zip hz
  obtain ⟨r', hr', hyr⟩ := (listed_node hw).1 hy
  have hland := landing_node hw hfit hz
  have hsends := hrec.sends
  obtain ⟨q, t⟩ := y
  cases t with
  | dir => cases hl; exact absurd rfl hne
  | special => cases hl
  | file info len =>
    cases hl
    obtain ⟨hlen, hdata⟩ := hun.file r' hr' _ _ _ hyr
    have hkind : Kind.file = item.entry.kind := congrArg Prod.fst (Option.some.inj hsends)
    have hsize : len = item.entry.size := congrArg Prod.snd (Option.some.inj hsends)
    have hpay : (parcel content item).payload = data q := by
      rw [parcel, hdata item hitem hland, Send.payloadLen, ← hkind]
      dsimp only
      rw [← hsize, ← hlen, List.take_length]
    rw [planted, hland, ← hkind, hpay]
  | symlink info target =>
    cases hl
    have hkind : Kind.symlink = item.entry.kind := congrArg Prod.fst (Option.some.inj hsends)
    have hsize : UInt64.ofNat target.length = item.entry.size := congrArg Prod.snd (Option.some.inj hsends)
    have hlen : item.entry.size.toNat = target.length := by
      have hle := (hfit r' hr' _ hyr).2 info target rfl
      rw [← hsize, UInt64.toNat_ofNat', Nat.mod_eq_of_lt]
      exact lt_of_le_of_lt hle (by decide)
    have hpay : (parcel content item).payload = target := by
      rw [parcel, hun.link r' hr' _ _ _ hyr item hitem hland, Send.payloadLen, ← hkind]
      dsimp only
      rw [hlen, List.take_length]
    rw [planted, hland, ← hkind, hpay]

omit hfit in
/-- A node that is listed looks like something. -/
theorem leaf_listed (bytes : Bytes) (hy : (p, t) ∈ L) : ∃ l, leafOf bytes t = some l := by
  obtain ⟨r, hr, hyr⟩ := (listed_node hw).1 hy
  have hsome := (List.mem_filter.1 hyr).2
  cases t with
  | special => cases hsome
  | _ => exact ⟨_, rfl⟩

omit hfit in
theorem stands_iff {l : Leaf} : Stands data roots p l ↔ (p = [] ∧ l = .dir) ∨ ∃ t, (p, t) ∈ L ∧ leafOf (data p) t = some l := by
  constructor
  · rintro (_ | ⟨hr, hmem, hl⟩)
    · exact .inl ⟨rfl, rfl⟩
    · exact .inr ⟨_, (listed_node hw).2 ⟨_, hr, hmem⟩, hl⟩
  · rintro (⟨rfl, rfl⟩ | ⟨t, ht, hl⟩)
    · exact .base
    · obtain ⟨r, hr, hmem⟩ := (listed_node hw).1 ht
      exact .node hr hmem hl

omit hfit in
/-- Between a root and a node there are directories. -/
theorem dir_above {y : List Name × SourceTree} (hy : y ∈ L) (hp : p ≠ []) (hpre : p <+: y.1) (hne : p ≠ y.1) :
    ∃ info children, (p, SourceTree.dir info children) ∈ L := by
  obtain ⟨r, hr, hyr⟩ := (listed_node hw).1 hy
  have hnode := (List.mem_filter.1 hyr).1
  obtain ⟨qs, hqs, -⟩ := Send.nodes_path hnode
  obtain ⟨rest, hrest⟩ := hpre
  have hrest' : rest ≠ [] := by
    rintro rfl
    exact hne (by simpa using hrest)
  obtain ⟨n, ps, rfl⟩ := List.exists_cons_of_ne_nil hp
  have hsplit : n :: (ps ++ rest) = r.name :: qs := hrest.trans hqs
  obtain ⟨rfl, rfl⟩ := List.cons.inj hsplit
  obtain ⟨info, children, hdir⟩ := Send.nodes_above hnode hqs hrest'
  exact ⟨info, children, (listed_node hw).2 ⟨r, hr, List.mem_filter.2 ⟨hdir, rfl⟩⟩⟩

omit hfit in
theorem item_of_node {y : List Name × SourceTree} (hy : y ∈ L) : ∃ item ∈ items, (y, item) ∈ L.zip items := by
  obtain ⟨i, hi, rfl⟩ := List.mem_iff_getElem.1 hy
  have hi' : i < items.length := by rw [← hw.records.length_eq]; exact hi
  exact ⟨_, List.getElem_mem hi', mem_zip_get hi hi'⟩

omit hfit in
theorem node_of_item (hm : item ∈ items) : ∃ y ∈ L, (y, item) ∈ L.zip items := by
  obtain ⟨i, hi, rfl⟩ := List.mem_iff_getElem.1 hm
  have hi' : i < L.length := by rw [hw.records.length_eq]; exact hi
  exact ⟨_, List.getElem_mem hi', mem_zip_get hi' hi⟩

/-- The items put at a path the file or link that the sources have there, -/
theorem mem_planted (hun : Unchanged content data roots items) {v : Leaf} :
    (p, some v) ∈ items.map (planted content) ↔ v ≠ .dir ∧ ∃ t, (p, t) ∈ L ∧ leafOf (data p) t = some v := by
  constructor
  · intro hm
    obtain ⟨item, hitem, he⟩ := List.mem_map.1 hm
    obtain ⟨⟨q, t⟩, hy, hz⟩ := node_of_item hw hitem
    obtain rfl : q = p := (landing_node hw hfit hz).symm.trans (congrArg Prod.fst he)
    obtain ⟨l, hl⟩ := leaf_listed hw (data q) hy
    by_cases hdir : l = .dir
    · obtain ⟨info, children, rfl⟩ : ∃ info children, t = .dir info children := by
        cases t with
        | dir info children => exact ⟨info, children, rfl⟩
        | special => cases hl
        | file | symlink =>
          cases hl
          cases hdir
      rw [planted_dir hw hfit hz rfl] at he
      cases congrArg Prod.snd he
    · rw [planted_leaf hw hfit hun hz hl hdir] at he
      obtain rfl : l = v := Option.some.inj (congrArg Prod.snd he)
      exact ⟨hdir, t, hy, hl⟩
  · rintro ⟨hdir, t, ht, hl⟩
    obtain ⟨item, hitem, hz⟩ := item_of_node hw ht
    have hp := planted_leaf hw hfit hun hz hl hdir
    exact List.mem_map.2 ⟨item, hitem, hp⟩

/-- and directories on the way to their nodes. -/
theorem above_planted : (∃ z ∈ items.map (planted content), p <+: z.1) ↔ ∃ y ∈ L, p <+: y.1 := by
  constructor
  · rintro ⟨z, hz, hpre⟩
    obtain ⟨item, hitem, rfl⟩ := List.mem_map.1 hz
    obtain ⟨y, hy, hzip⟩ := node_of_item hw hitem
    exact ⟨y, hy, landing_node hw hfit hzip ▸ hpre⟩
  · rintro ⟨y, hy, hpre⟩
    obtain ⟨item, hitem, hzip⟩ := item_of_node hw hy
    refine ⟨planted content item, List.mem_map_of_mem hitem, ?_⟩
    show p <+: landing item
    rw [landing_node hw hfit hzip]
    exact hpre

/-- Put into an empty directory, the items make what the sources show. -/
theorem arrive_stands (hun : Unchanged content data roots items) {before : List Name → Option Leaf}
    (hb : ∀ p, before p = if p = [] then some .dir else none) (l : Leaf) :
    arrive content before items p = some l ↔ Stands data roots p l := by
  have hpaths : (L.map Prod.fst).Nodup := by
    rw [← landing_paths hw hfit]
    exact landing_nodup hw hfit
  have hroot : ∀ {t}, (p, t) ∈ L → p ≠ [] := by
    intro t ht he
    obtain ⟨r, -, hyr⟩ := (listed_node hw).1 ht
    obtain ⟨qs, hqs, -⟩ := Send.nodes_path (List.mem_filter.1 hyr).1
    rw [show ((p, t) : List Name × SourceTree).1 = p from rfl, he] at hqs
    cases hqs
  rw [stands_iff hw, arrive]
  by_cases hv : ∃ v, (p, some v) ∈ items.map (planted content)
  · obtain ⟨v, hv⟩ := hv
    obtain ⟨-, t, ht, hl⟩ := (mem_planted hw hfit hun).1 hv
    rw [Tree.foldl_place_value (planted_nodup (landing_nodup hw hfit)) hv]
    constructor
    · rintro ⟨⟩
      exact .inr ⟨t, ht, hl⟩
    · rintro (⟨rfl, -⟩ | ⟨t', ht', hl'⟩)
      · exact absurd rfl (hroot ht)
      · have hsame := List.inj_on_of_nodup_map hpaths ht ht' rfl
        cases hsame
        exact hl.symm.trans hl'
  · have hno : ∀ v, (p, some v) ∉ items.map (planted content) := fun v hm => hv ⟨v, hm⟩
    -- what the sources have here is a directory
    have hdir : ∀ {t l}, (p, t) ∈ L → leafOf (data p) t = some l → l = .dir := by
      intro t l ht hl
      by_contra hne
      exact hno l ((mem_planted hw hfit hun).2 ⟨hne, t, ht, hl⟩)
    rw [Tree.foldl_place_way hno, hb]
    by_cases hp : p = []
    · subst hp
      rw [if_pos rfl]
      constructor
      · rintro ⟨⟩
        exact .inl ⟨rfl, rfl⟩
      · rintro (⟨-, rfl⟩ | ⟨t, ht, -⟩)
        · rfl
        · exact absurd rfl (hroot ht)
    · rw [if_neg hp]
      show Tree.way _ _ _ = _ ↔ _
      constructor
      · intro h
        by_cases hway : ∃ z ∈ items.map (planted content), p <+: z.1
        · obtain ⟨y, hy, hpre⟩ := (above_planted hw hfit).1 hway
          obtain ⟨z, hz, hzp⟩ := hway
          rw [Tree.way_of_mem hz hzp] at h
          cases h
          right
          by_cases heq : p = y.1
          · subst heq
            obtain ⟨l, hl⟩ := leaf_listed hw (data y.1) hy
            obtain rfl := hdir hy hl
            exact ⟨y.2, hy, hl⟩
          · obtain ⟨info, children, hmem⟩ := dir_above hw hy hp hpre heq
            exact ⟨_, hmem, rfl⟩
        · rw [Tree.way_none fun z hz hpre => hway ⟨z, hz, hpre⟩] at h
          cases h
      · rintro (⟨hp', -⟩ | ⟨t, ht, hl⟩)
        · exact absurd hp' hp
        · obtain rfl := hdir ht hl
          obtain ⟨z, hz, hpre⟩ : ∃ z ∈ items.map (planted content), p <+: z.1 :=
            (above_planted hw hfit).2 ⟨_, ht, List.prefix_rfl⟩
          exact Tree.way_of_mem hz hpre

end Walked

/-! ## A copy -/

def nameY : Send.FName := ⟨[121], by decide, by decide, by decide, by decide, by decide⟩

def nameZ : Send.FName := ⟨[122], by decide, by decide, by decide, by decide, by decide⟩

def shelf : List (Send.FName × SourceTree) := [(nameZ, .symlink ⟨0o777, 2, 0⟩ [46]), (nameY, .file ⟨0o644, 3, 0⟩ 1)]

theorem shelf_named : (SourceTree.dir ⟨0o755, 1, 0⟩ shelf).Named := by
  refine .dir (by decide) fun c hc => ?_
  fin_cases hc
  · exact .symlink
  · exact .file

/-- A directory with a link to itself and a file of one byte. -/
def shelves : List Root := [⟨[47, 113], .dir ⟨0o755, 1, 0⟩ shelf, by decide, shelf_named⟩]

def books : List Item := [Send.makeItem [47, 113] ⟨[113], by decide⟩ .dir 0 0o755 1,
  Send.makeItem [47, 113, 47, 121] ⟨[113, 47, 121], by decide⟩ .file 1 0o644 3,
  Send.makeItem [47, 113, 47, 122] ⟨[113, 47, 122], by decide⟩ .symlink 1 0o777 2]

theorem walk_shelves : walk (fun _ => none) shelves = .ok books := by
  have hsort : Send.sortByName shelf = [(nameY, .file ⟨0o644, 3, 0⟩ 1), (nameZ, .symlink ⟨0o777, 2, 0⟩ [46])] := by
    simp [Send.sortByName, shelf, List.mergeSort, List.merge, nameY, nameZ]
    decide
  have hname : (Send.fileName [47, 113]).bind Send.toStr = some ⟨[113], by decide⟩ := by decide +kernel
  unfold walk shelves Send.walkAll
  rw [hname]
  dsimp only
  rw [Send.visit_dir rfl, hsort]
  simp [Send.visitAll, Send.visit, nameY, nameZ]
  rfl

/-- The nodes of the shelf, and of which kind they are. -/
theorem listed_shelves {r : Root} {y : List Name × SourceTree} (hr : r ∈ shelves) (hy : y ∈ r.source.listed [r.name]) :
    y = ([[113]], .dir ⟨0o755, 1, 0⟩ shelf) ∨ y = ([[113], [122]], .symlink ⟨0o777, 2, 0⟩ [46]) ∨
      y = ([[113], [121]], .file ⟨0o644, 3, 0⟩ 1) := by
  obtain rfl := List.mem_singleton.1 hr
  have hname : Root.name ⟨[47, 113], .dir ⟨0o755, 1, 0⟩ shelf, by decide, shelf_named⟩ = [113] := by decide +kernel
  rw [hname] at hy
  simpa [SourceTree.listed, SourceTree.nodes, shelf, nameY, nameZ, SourceTree.sends] using hy

/-- What is on the shelf. -/
def shelved (item : Item) : Bytes := if item.entry.kind = .file then [9] else [46]

def lending : Setup := ⟨books, false, 2, fun _ => ⟨List.replicate 32 3, by decide⟩, 1, 1, 0, false, 0o022⟩

/-- The directory and the link on the one flow, the file on the other. -/
def lent : List Act :=
  let read (i n : Nat) : List Act := List.replicate n (.lane i (.read (moves 0)))
  let sock (i : Nat) (ns : List Nat) : List Act := ns.map fun n => .lane i (.sock (moves n))
  let net (i n : Nat) : List Act := List.replicate n (.net i takes)
  let write (i n : Nat) : List Act := List.replicate n (.writer i takes)
  let main (n : Nat) : List Act := List.replicate n (.recvMain takes)
  [.sendMain (moves 77), .sendMain (moves 0), .deliver 0 99] ++ main 9 ++ net 0 1 ++ [.reply 9, .sendMain (moves 0), .sendMain (moves 0)] ++
    read 0 1 ++ sock 0 [0] ++ read 0 1 ++ [.lane 0 (.read ⟨none, [46], 0⟩)] ++ sock 0 [24, 0, 0] ++ read 0 1 ++
    sock 0 [26, 0, 0, 1, 0, 0, 0, 0] ++ [.deliver 0 99] ++ net 0 13 ++ write 0 1 ++
    read 1 4 ++ sock 1 [0] ++ read 1 1 ++ sock 1 [26, 0, 0, 1, 0, 0, 0, 0] ++ [.sendMain (moves 0), .deliver 1 99] ++
    net 1 9 ++ write 1 1 ++ net 1 1 ++ write 1 1 ++ net 1 2 ++ write 1 6 ++ main 3 ++ [.reply 9, .sendMain (moves 0)]

end Thunderflash.Session
