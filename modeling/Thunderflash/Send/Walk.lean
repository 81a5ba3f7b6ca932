/-
`walk`: from the source trees to the list of items, directories before what is in them, siblings in
the order of their names, and nothing followed.
-/
import Thunderflash.Wire.Sanitize
import Thunderflash.Tree.Preorder
import Thunderflash.Send.Model

namespace Thunderflash.Send

open Codec Posix

/-! ## What is there -/

/-- A name of a directory. -/
abbrev FName := {n : Name // Proper n}

/-- What `symlink_metadata` says besides kind and size: the seconds of the mtime, rounded down, and
the nanoseconds on top. -/
structure Meta where
  mode : UInt32
  secs : Int64
  nanos : Nat
  deriving DecidableEq, Repr

/-- What a path leads to when no link is followed. A directory's children come as `read_dir` gives
them. -/
inductive SourceTree
  | dir (info : Meta) (children : List (FName × SourceTree))
  | file (info : Meta) (len : UInt64)
  | symlink (info : Meta) (target : Bytes)
  /-- A FIFO, socket or device. -/
  | special (info : Meta)

/-- No directory has a name twice. -/
inductive SourceTree.Named : SourceTree → Prop
  | dir {info : Meta} {children : List (FName × SourceTree)} :
      (children.map Prod.fst).Nodup → (∀ c ∈ children, c.2.Named) → Named (.dir info children)
  | file {info : Meta} {len : UInt64} : Named (.file info len)
  | symlink {info : Meta} {target : Bytes} : Named (.symlink info target)
  | special {info : Meta} : Named (.special info)

/-- Every name and every link target is UTF-8. -/
inductive SourceTree.Text : SourceTree → Prop
  | dir {info : Meta} {children : List (FName × SourceTree)} :
      (∀ c ∈ children, utf8 c.1.1 = true) → (∀ c ∈ children, c.2.Text) → Text (.dir info children)
  | file {info : Meta} {len : UInt64} : Text (.file info len)
  | symlink {info : Meta} {target : Bytes} : utf8 target = true → Text (.symlink info target)
  | special {info : Meta} : Text (.special info)

/-- A path given on the command line, and the tree it names. -/
structure Root where
  path : Bytes
  source : SourceTree
  nul : (0 : UInt8) ∉ path
  named : source.Named

/-! ## The code -/

inductive WalkErr
  | os (e : Errno)
  | cannotName (path : Bytes)
  | targetNotUtf8 (path : Bytes)
  | nameNotUtf8 (name : Bytes)
  deriving DecidableEq, Repr

/-- `mtime_of`: before the epoch the duration is cut off towards it. -/
def mtimeOf (info : Meta) : Int64 := if 0 ≤ info.secs ∨ info.nanos = 0 then info.secs else info.secs + 1

/-- `Path::file_name`: the last component, unless it is `..`. -/
def fileName (path : Bytes) : Option Bytes :=
  ((segments path).filter kept).getLast?.bind fun n => if n = [DOT, DOT] then none else some n

/-- `Path::join` with one name. -/
def joinName (abs : Bytes) (name : Bytes) : Bytes :=
  match abs.getLast? with
  | none => name
  | some b => if b = SLASH then abs ++ name else abs ++ [SLASH] ++ name

/-- `format!("{rel}/{name}")`. -/
def joinRel (rel : Str) (name : Str) : Str :=
  ⟨rel.bytes ++ ([SLASH] ++ name.bytes), utf8_append rel.valid (utf8_append (by decide) name.valid)⟩

/-- `OsStr::to_str`. -/
def toStr (bs : Bytes) : Option Str := if h : utf8 bs = true then some ⟨bs, h⟩ else none

/-- `sort_by_key` of the file names, which are compared as bytes. -/
def sortByName (children : List (FName × SourceTree)) : List (FName × SourceTree) :=
  children.mergeSort fun a b => decide (a.1.1 ≤ b.1.1)

theorem sizeOf_child {c : FName × SourceTree} {info : Meta} {children : List (FName × SourceTree)} (h : c ∈ children) :
    sizeOf c.2 < sizeOf (SourceTree.dir info children) := by
  have hlist := List.sizeOf_lt_of_mem h
  have hpair : sizeOf c.2 < sizeOf c := by
    obtain ⟨n, t⟩ := c
    rw [Prod.mk.sizeOf_spec]
    show sizeOf t < _
    omega
  rw [SourceTree.dir.sizeOf_spec]
  omega

/-- Induction over a tree: a directory after its children. -/
theorem SourceTree.induct {P : SourceTree → Prop} (dir : ∀ info children, (∀ c ∈ children, P c.2) → P (.dir info children))
    (file : ∀ info len, P (.file info len)) (symlink : ∀ info target, P (.symlink info target))
    (special : ∀ info, P (.special info)) : ∀ source, P source
  | .dir info children => dir info children fun c _hc => SourceTree.induct dir file symlink special c.2
  | .file info len => file info len
  | .symlink info target => symlink info target
  | .special info => special info
termination_by source => sizeOf source
decreasing_by exact sizeOf_child _hc

/-- `visit`. A call on a path may fail. -/
def visit (fault : Bytes → Option Errno) (abs : Bytes) (rel : Str) (items : List Item) (source : SourceTree) :
    Except WalkErr (List Item) :=
  match fault abs with
  | some e => .error (.os e)
  | none =>
    match source with
    | .symlink info target =>
      match toStr target with
      | none => .error (.targetNotUtf8 abs)
      | some t =>
        .ok (items ++ [makeItem abs rel .symlink (UInt64.ofNat t.bytes.length) info.mode (mtimeOf info)])
    | .dir info children =>
      (sortByName children).attach.foldlM (fun items c =>
        match toStr c.1.1.1 with
        | none => .error (.nameNotUtf8 c.1.1.1)
        | some name => visit fault (joinName abs c.1.1.1) (joinRel rel name) items c.1.2)
        (items ++ [makeItem abs rel .dir 0 info.mode (mtimeOf info)])
    -- not sendable, and skipped
    | .special _ => .ok items
    | .file info len => .ok (items ++ [makeItem abs rel .file len info.mode (mtimeOf info)])
termination_by sizeOf source
decreasing_by exact sizeOf_child (List.mem_mergeSort.1 c.2)

/-- The loop over the roots. -/
def walkAll (fault : Bytes → Option Errno) (items : List Item) : List Root → Except WalkErr (List Item)
  | [] => .ok items
  | root :: roots =>
    match (fileName root.path).bind toStr with
    | none => .error (.cannotName root.path)
    | some name => (visit fault root.path name items root.source).bind fun items => walkAll fault items roots

def walk (fault : Bytes → Option Errno) (roots : List Root) : Except WalkErr (List Item) := walkAll fault [] roots

/-! ## The loop over a directory -/

variable {fault : Bytes → Option Errno} {abs root : Bytes} {rel : Str} {items items' : List Item} {source : SourceTree}
  {ps : List Name}

/-- `visit` of each child, in this order. -/
def visitAll (fault : Bytes → Option Errno) (abs : Bytes) (rel : Str) (items : List Item)
    (children : List (FName × SourceTree)) : Except WalkErr (List Item) :=
  children.foldlM (fun items c =>
    match toStr c.1.1 with
    | none => .error (.nameNotUtf8 c.1.1)
    | some name => visit fault (joinName abs c.1.1) (joinRel rel name) items c.2) items

theorem visit_dir {info : Meta} {children : List (FName × SourceTree)} (h : fault abs = none) :
    visit fault abs rel items (.dir info children) =
      visitAll fault abs rel (items ++ [makeItem abs rel .dir 0 info.mode (mtimeOf info)]) (sortByName children) := by
  rw [visit, h]
  refine (List.foldlM_subtype (g := fun items c =>
    match toStr c.1.1 with
    | none => .error (.nameNotUtf8 c.1.1)
    | some name => visit fault (joinName abs c.1.1) (joinRel rel name) items c.2) fun _ _ _ => rfl).trans ?_
  rw [List.unattach_attach]
  rfl

theorem visitAll_cons {c : FName × SourceTree} {children : List (FName × SourceTree)}
    (h : visitAll fault abs rel items (c :: children) = .ok items') :
    ∃ name mid, toStr c.1.1 = some name ∧ visit fault (joinName abs c.1.1) (joinRel rel name) items c.2 = .ok mid ∧
      visitAll fault abs rel mid children = .ok items' := by
  unfold visitAll at h
  rw [List.foldlM_cons] at h
  cases hname : toStr c.1.1 with
  | none => rw [hname] at h; cases h
  | some name =>
    rw [hname] at h
    dsimp only at h
    cases hvisit : visit fault (joinName abs c.1.1) (joinRel rel name) items c.2 with
    | error e => rw [hvisit] at h; cases h
    | ok mid =>
      rw [hvisit] at h
      exact ⟨name, mid, rfl, hvisit, h⟩

theorem sortByName_perm (children : List (FName × SourceTree)) : (sortByName children).Perm children :=
  List.mergeSort_perm children _

/-- Names that differ come out in strictly increasing order. -/
theorem sortByName_sorted {children : List (FName × SourceTree)} (h : (children.map Prod.fst).Nodup) :
    ((sortByName children).map fun c => c.1.1).Pairwise (· < ·) := by
  have hle : (sortByName children).Pairwise fun a b => a.1.1 ≤ b.1.1 := by
    have htrans : ∀ a b c : FName × SourceTree, decide (a.1.1 ≤ b.1.1) = true → decide (b.1.1 ≤ c.1.1) = true →
        decide (a.1.1 ≤ c.1.1) = true := by
      intro a b c hab hbc
      exact decide_eq_true (List.le_trans (of_decide_eq_true hab) (of_decide_eq_true hbc))
    have htotal : ∀ a b : FName × SourceTree, (decide (a.1.1 ≤ b.1.1) || decide (b.1.1 ≤ a.1.1)) = true := by
      intro a b
      rw [Bool.or_eq_true, decide_eq_true_eq, decide_eq_true_eq]
      exact List.le_total a.1.1 b.1.1
    exact (List.pairwise_mergeSort htrans htotal children).imp fun hab => of_decide_eq_true hab
  have hne : (sortByName children).Pairwise fun a b => a.1 ≠ b.1 := by
    rw [← List.pairwise_map (f := Prod.fst) (R := (· ≠ ·)), ← List.nodup_iff_pairwise_ne]
    exact ((sortByName_perm children).map _).nodup_iff.2 h
  refine List.pairwise_map.2 ((hle.and hne).imp fun {a b} hab => ?_)
  by_contra hlt
  exact hab.2 (Subtype.ext (List.le_antisymm hab.1 (List.not_lt.1 hlt)))

/-! ## What is listed -/

/-- Every node of the tree at `ps`, with the names that lead to it. -/
def SourceTree.nodes (ps : List Name) : SourceTree → List (List Name × SourceTree)
  | .dir info children => (ps, .dir info children) :: children.flatMap fun c => c.2.nodes (ps ++ [c.1.1])
  | .file info len => [(ps, .file info len)]
  | .symlink info target => [(ps, .symlink info target)]
  | .special info => [(ps, .special info)]
termination_by source => sizeOf source
decreasing_by exact sizeOf_child ‹_ ∈ children›

def SourceTree.info : SourceTree → Meta
  | .dir info _ | .file info _ | .symlink info _ | .special info => info

/-- The kind and size of the entry a node is sent as. -/
def SourceTree.sends : SourceTree → Option (Kind × UInt64)
  | .dir .. => some (.dir, 0)
  | .file _ len => some (.file, len)
  | .symlink _ target => some (.symlink, UInt64.ofNat target.length)
  | .special _ => none

/-- The nodes that are sent. -/
def SourceTree.listed (ps : List Name) (source : SourceTree) : List (List Name × SourceTree) :=
  (source.nodes ps).filter fun x => x.2.sends.isSome

/-- The item is the one of this node, below a root. -/
structure Records (root : Bytes) (x : List Name × SourceTree) (it : Item) : Prop where
  abs : it.abs = x.1.tail.foldl joinName root
  path : it.entry.path.bytes = joinPath x.1
  sends : x.2.sends = some (it.entry.kind, it.entry.size)
  mode : it.entry.mode = x.2.info.mode
  mtime : it.entry.mtime = mtimeOf x.2.info
  header : it.header = it.entry.encode

theorem joinPath_snoc (hne : ps ≠ []) (n : Name) : joinPath (ps ++ [n]) = joinPath ps ++ ([SLASH] ++ n) := by
  induction ps with
  | nil => exact absurd rfl hne
  | cons p ps ih =>
    cases ps with
    | nil => simp [joinPath, List.intercalate_cons_cons]
    | cons q ps =>
      have ih := ih (by simp)
      rw [List.cons_append, List.cons_append, joinPath_cons_cons, joinPath_cons_cons, ← List.cons_append, ih]
      simp

theorem tail_snoc (hne : ps ≠ []) (n : Name) :
    (ps ++ [n]).tail.foldl joinName root = joinName (ps.tail.foldl joinName root) n := by
  rw [List.tail_append_of_ne_nil hne, List.foldl_append]
  rfl

theorem toStr_bytes {bs : Bytes} {t : Str} (h : toStr bs = some t) : t.bytes = bs := by
  unfold toStr at h
  split at h <;> cases h
  rfl

/-- What visiting a tree adds: the items of its nodes, each after those above it. -/
structure Adds (root : Bytes) (ps : List Name) (listed : List (List Name × SourceTree)) (items items' : List Item) :
    Prop where
  adds : ∃ new L, items' = items ++ new ∧ List.Forall₂ (Records root) L new ∧ L.Perm listed ∧
    Tree.Listing (· < ·) ps (L.map Prod.fst)

theorem Adds.one {x : List Name × SourceTree} {it : Item} (h : Records root x it) :
    Adds root x.1 [x] items (items ++ [it]) := by
  have hleaf : Tree.Listing (· < ·) x.1 (x.1 :: [].flatMap Prod.snd) := .node .nil nofun
  exact ⟨[it], [x], rfl, .cons h .nil, .refl _, hleaf⟩

/-- What the loop over the children adds. -/
theorem visitAll_adds : ∀ {children : List (FName × SourceTree)} {items : List Item},
    (∀ c ∈ children, ∀ {name items items'}, toStr c.1.1 = some name →
      visit fault (joinName abs c.1.1) (joinRel rel name) items c.2 = .ok items' →
      Adds root (ps ++ [c.1.1]) (c.2.listed (ps ++ [c.1.1])) items items') →
    visitAll fault abs rel items children = .ok items' →
    ∃ (new : List Item) (kids : List (Name × List (List Name × SourceTree))), items' = items ++ new ∧
      List.Forall₂ (Records root) (kids.flatMap Prod.snd) new ∧
      kids.map Prod.fst = children.map (fun c => c.1.1) ∧
      (kids.flatMap Prod.snd).Perm (children.flatMap fun c => c.2.listed (ps ++ [c.1.1])) ∧
      ∀ k ∈ kids, Tree.Listing (· < ·) (ps ++ [k.1]) (k.2.map Prod.fst)
  | [], items, _, h => by
    cases h
    exact ⟨[], [], by simp, .nil, rfl, .refl _, nofun⟩
  | c :: children, items, hc, h => by
    obtain ⟨name, mid, hname, hvisit, hrest⟩ := visitAll_cons h
    obtain ⟨new, L, rfl, hnew, hperm, hlist⟩ := (hc c (List.mem_cons_self ..) hname hvisit).adds
    obtain ⟨more, kids, rfl, hmore, hnames, hperms, hlists⟩ :=
      visitAll_adds (fun c hc' => hc c (List.mem_cons_of_mem _ hc')) hrest
    refine ⟨new ++ more, (c.1.1, L) :: kids, by rw [List.append_assoc], ?_, ?_, ?_, ?_⟩
    · rw [List.flatMap_cons]
      exact List.rel_append hnew hmore
    · rw [List.map_cons, List.map_cons, hnames]
    · rw [List.flatMap_cons, List.flatMap_cons]
      exact hperm.append hperms
    · intro k hk
      rcases List.mem_cons.1 hk with rfl | hk
      · exact hlist
      · exact hlists k hk

theorem listed_dir (info : Meta) (children : List (FName × SourceTree)) : (SourceTree.dir info children).listed ps =
    (ps, .dir info children) :: children.flatMap fun c => c.2.listed (ps ++ [c.1.1]) := by
  unfold SourceTree.listed
  rw [SourceTree.nodes, List.filter_cons_of_pos (by rfl), List.filter_flatMap]

/-- Visiting a tree adds its nodes in preorder. -/
theorem visit_adds (hn : source.Named) (hne : ps ≠ []) (hrel : rel.bytes = joinPath ps)
    (habs : abs = ps.tail.foldl joinName root) (h : visit fault abs rel items source = .ok items') :
    Adds root ps (source.listed ps) items items' := by
  induction source using SourceTree.induct generalizing abs rel items items' ps with
  | file info len =>
    unfold visit at h
    split at h
    · cases h
    · cases h
      rw [SourceTree.listed, SourceTree.nodes]
      exact .one (x := (ps, .file info len)) ⟨habs, hrel, rfl, rfl, rfl, rfl⟩
  | symlink info target =>
    unfold visit at h
    split at h
    · cases h
    · dsimp only at h
      split at h
      · cases h
      · rename_i t ht
        cases h
        rw [SourceTree.listed, SourceTree.nodes]
        refine .one (x := (ps, .symlink info target)) ⟨habs, hrel, ?_, rfl, rfl, rfl⟩
        rw [toStr_bytes ht]
        rfl
  | special info =>
    unfold visit at h
    split at h
    · cases h
    · cases h
      rw [SourceTree.listed, SourceTree.nodes]
      exact ⟨[], [], by simp, .nil, .refl _, .skip⟩
  | dir info children ih =>
    cases hf : fault abs with
    | some e => rw [visit, hf] at h; cases h
    | none =>
      rw [visit_dir hf] at h
      cases hn with
      | dir hnames heach =>
        have hsorted := sortByName_sorted hnames
        have hperm := sortByName_perm children
        have hchild : ∀ c ∈ sortByName children, ∀ {name items items'}, toStr c.1.1 = some name →
            visit fault (joinName abs c.1.1) (joinRel rel name) items c.2 = .ok items' →
            Adds root (ps ++ [c.1.1]) (c.2.listed (ps ++ [c.1.1])) items items' := by
          intro c hc name items items' hname hv
          have hmem : c ∈ children := hperm.subset hc
          refine ih c hmem (heach c hmem) (by simp) ?_ ?_ hv
          · rw [joinPath_snoc hne, ← hrel, ← toStr_bytes hname]
            rfl
          · rw [tail_snoc hne, habs]
        obtain ⟨new, kids, rfl, hnew, hkids, hlisted, hlists⟩ := visitAll_adds hchild h
        refine ⟨makeItem abs rel .dir 0 info.mode (mtimeOf info) :: new,
          (ps, .dir info children) :: kids.flatMap Prod.snd, by rw [List.append_assoc]; rfl,
          .cons ⟨habs, hrel, rfl, rfl, rfl, rfl⟩ hnew, ?_, ?_⟩
        · rw [listed_dir]
          exact (hlisted.trans (hperm.flatMap_right _)).cons _
        · have hmap : (kids.flatMap Prod.snd).map Prod.fst =
              (kids.map fun k => (k.1, k.2.map Prod.fst)).flatMap Prod.snd := by
            rw [List.map_flatMap, List.flatMap_map]
          rw [List.map_cons, hmap]
          refine .node ?_ ?_
          · rw [List.map_map]
            show (kids.map Prod.fst).Pairwise (· < ·)
            rw [hkids]
            exact hsorted
          · intro j hj
            obtain ⟨k, hk, rfl⟩ := List.mem_map.1 hj
            exact hlists k hk

/-! ## The nodes of a tree -/

theorem mem_nodes_dir {info : Meta} {children : List (FName × SourceTree)} {x : List Name × SourceTree} :
    x ∈ (SourceTree.dir info children).nodes ps ↔
      x = (ps, .dir info children) ∨ ∃ c ∈ children, x ∈ c.2.nodes (ps ++ [c.1.1]) := by
  rw [SourceTree.nodes, List.mem_cons, List.mem_flatMap]

/-- A node's path goes on from where its tree is, by the names of directories. -/
theorem nodes_path {x : List Name × SourceTree} (h : x ∈ source.nodes ps) :
    ∃ qs, x.1 = ps ++ qs ∧ ∀ n ∈ qs, Proper n := by
  induction source using SourceTree.induct generalizing ps with
  | file info len => rw [SourceTree.nodes, List.mem_singleton] at h; exact ⟨[], by rw [h, List.append_nil], nofun⟩
  | symlink info target => rw [SourceTree.nodes, List.mem_singleton] at h; exact ⟨[], by rw [h, List.append_nil], nofun⟩
  | special info => rw [SourceTree.nodes, List.mem_singleton] at h; exact ⟨[], by rw [h, List.append_nil], nofun⟩
  | dir info children ih =>
    rcases mem_nodes_dir.1 h with rfl | ⟨c, hc, hx⟩
    · exact ⟨[], by rw [List.append_nil], nofun⟩
    · obtain ⟨qs, hqs, hp⟩ := ih c hc hx
      refine ⟨c.1.1 :: qs, by rw [hqs, List.append_assoc, List.singleton_append], fun n hn => ?_⟩
      rcases List.mem_cons.1 hn with rfl | hn
      · exact c.1.2
      · exact hp n hn

/-- Above a node there are directories only. -/
theorem nodes_above {x : List Name × SourceTree} {r t : List Name} (h : x ∈ source.nodes ps) (hx : x.1 = ps ++ (r ++ t))
    (ht : t ≠ []) : ∃ info children, (ps ++ r, .dir info children) ∈ source.nodes ps := by
  have hbelow : x.1 ≠ ps := by
    intro he
    rw [he] at hx
    have hnil : r ++ t = [] := List.self_eq_append_right.1 hx
    exact ht (List.append_eq_nil_iff.1 hnil).2
  induction source using SourceTree.induct generalizing ps r with
  | file info len => rw [SourceTree.nodes, List.mem_singleton] at h; exact absurd (by rw [h]) hbelow
  | symlink info target => rw [SourceTree.nodes, List.mem_singleton] at h; exact absurd (by rw [h]) hbelow
  | special info => rw [SourceTree.nodes, List.mem_singleton] at h; exact absurd (by rw [h]) hbelow
  | dir info children ih =>
    rcases mem_nodes_dir.1 h with rfl | ⟨c, hc, hxc⟩
    · exact absurd rfl hbelow
    · cases r with
      | nil => exact ⟨info, children, by rw [List.append_nil]; exact mem_nodes_dir.2 (.inl rfl)⟩
      | cons n r =>
        obtain ⟨qs, hqs, -⟩ := nodes_path hxc
        rw [hqs, List.append_assoc, List.append_cancel_left_eq, List.cons_append] at hx
        obtain ⟨rfl, rfl⟩ := List.cons.inj hx
        have hdeep : x.1 ≠ ps ++ [c.1.1] := by
          intro he
          rw [he] at hqs
          have hnil : r ++ t = [] := List.self_eq_append_right.1 hqs
          exact ht (List.append_eq_nil_iff.1 hnil).2
        obtain ⟨info', children', hmem⟩ := ih c hc hxc hqs hdeep
        rw [List.append_assoc, List.singleton_append] at hmem
        exact ⟨info', children', mem_nodes_dir.2 (.inr ⟨c, hc, hmem⟩)⟩

/-! ## Coming to an end -/

theorem toStr_utf8 {bs : Bytes} (h : utf8 bs = true) : ∃ t, toStr bs = some t := ⟨⟨bs, h⟩, dif_pos h⟩

/-- Where no call fails and everything is UTF-8, a visit comes to its end. -/
theorem visit_ends (hf : ∀ p, fault p = none) (ht : source.Text) :
    ∃ items', visit fault abs rel items source = .ok items' := by
  induction source using SourceTree.induct generalizing abs rel items with
  | file info len => exact ⟨_, by rw [visit, hf]⟩
  | special info => exact ⟨_, by rw [visit, hf]⟩
  | symlink info target =>
    cases ht with
    | symlink hu =>
      obtain ⟨t, ht⟩ := toStr_utf8 hu
      exact ⟨_, by rw [visit, hf]; dsimp only; rw [ht]⟩
  | dir info children ih =>
    cases ht with
    | dir hu htext =>
      rw [visit_dir (hf _)]
      have hsub : ∀ c ∈ sortByName children, c ∈ children := fun c hc => (sortByName_perm children).subset hc
      generalize sortByName children = cs at hsub
      generalize items ++ [makeItem abs rel .dir 0 info.mode (mtimeOf info)] = acc
      induction cs generalizing acc with
      | nil => exact ⟨acc, rfl⟩
      | cons c cs ihs =>
        have hc := hsub c (List.mem_cons_self ..)
        obtain ⟨name, hname⟩ := toStr_utf8 (hu c hc)
        obtain ⟨mid, hmid⟩ : ∃ mid, visit fault (joinName abs c.1.1) (joinRel rel name) acc c.2 = .ok mid :=
          ih c hc (htext c hc)
        obtain ⟨items', hrest⟩ := ihs (fun c hc => hsub c (List.mem_cons_of_mem _ hc)) mid
        refine ⟨items', ?_⟩
        unfold visitAll at hrest ⊢
        rw [List.foldlM_cons, hname]
        dsimp only
        rw [hmid]
        exact hrest

/-! ## The whole list -/

/-- The last component of a root's path. -/
def Root.name (r : Root) : Name := (fileName r.path).getD []

theorem fileName_proper {r : Root} {n : Name} (h : fileName r.path = some n) : Proper n := by
  obtain ⟨m, hm, hn⟩ := Option.bind_eq_some_iff.1 h
  split at hn
  · cases hn
  · cases hn
    obtain ⟨hmem, hk⟩ := List.mem_filter.1 (List.mem_of_getLast? hm)
    obtain ⟨h1, h2⟩ := (kept_iff _).1 hk
    exact ⟨h1, h2, by assumption, fun h0 => r.nul (mem_of_splitOn hmem h0), not_mem_of_splitOn _ _ hmem⟩

/-- What the loop over the roots adds. -/
theorem walkAll_adds : ∀ {roots : List Root} {items items' : List Item}, walkAll fault items roots = .ok items' →
    ∃ (new : List Item) (kids : List (Name × List (List Name × SourceTree))), items' = items ++ new ∧
      List.Forall₂ (fun x it => ∃ r ∈ roots, Records r.path x it) (kids.flatMap Prod.snd) new ∧
      kids.map Prod.fst = roots.map Root.name ∧ (∀ r ∈ roots, Proper r.name) ∧
      (kids.flatMap Prod.snd).Perm (roots.flatMap fun r => r.source.listed [r.name]) ∧
      ∀ k ∈ kids, Tree.Listing (· < ·) ([] ++ [k.1]) (k.2.map Prod.fst)
  | [], items, items', h => by
    cases h
    exact ⟨[], [], by simp, .nil, rfl, nofun, .refl _, nofun⟩
  | r :: roots, items, items', h => by
    unfold walkAll at h
    split at h
    · cases h
    · rename_i name hname
      obtain ⟨n, hn, htext⟩ := Option.bind_eq_some_iff.1 hname
      have hrn : r.name = n := by rw [Root.name, hn]; rfl
      cases hvisit : visit fault r.path name items r.source with
      | error e => rw [hvisit] at h; cases h
      | ok mid =>
        rw [hvisit] at h
        have hrel : name.bytes = joinPath [r.name] := by rw [toStr_bytes htext, hrn]; simp [joinPath]
        have hadds : Adds r.path [r.name] (r.source.listed [r.name]) items mid :=
          visit_adds r.named (by simp) hrel rfl hvisit
        obtain ⟨new, L, rfl, hnew, hperm, hlist⟩ := hadds.adds
        obtain ⟨more, kids, rfl, hmore, hnames, hproper, hperms, hlists⟩ := walkAll_adds h
        refine ⟨new ++ more, (r.name, L) :: kids, by rw [List.append_assoc], ?_, ?_, ?_, ?_, ?_⟩
        · rw [List.flatMap_cons]
          refine List.rel_append (hnew.imp fun x it hx => ⟨r, List.mem_cons_self .., hx⟩) (hmore.imp ?_)
          rintro x it ⟨r', hr', hx⟩
          exact ⟨r', List.mem_cons_of_mem _ hr', hx⟩
        · rw [List.map_cons, List.map_cons, hnames]
        · intro r' hr'
          rcases List.mem_cons.1 hr' with rfl | hr'
          · rw [hrn]
            exact fileName_proper hn
          · exact hproper r' hr'
        · rw [List.flatMap_cons, List.flatMap_cons]
          exact hperm.append hperms
        · intro k hk
          rcases List.mem_cons.1 hk with rfl | hk
          · exact hlist
          · exact hlists k hk

theorem walkAll_ends (hf : ∀ p, fault p = none) : ∀ {roots : List Root} (items : List Item),
    (∀ r ∈ roots, (∃ n, fileName r.path = some n ∧ utf8 n = true) ∧ r.source.Text) →
    ∃ items', walkAll fault items roots = .ok items'
  | [], items, _ => ⟨items, rfl⟩
  | r :: roots, items, h => by
    obtain ⟨⟨n, hn, hu⟩, ht⟩ := h r (List.mem_cons_self ..)
    obtain ⟨t, htext⟩ := toStr_utf8 hu
    obtain ⟨mid, hmid⟩ : ∃ mid, visit fault r.path t items r.source = .ok mid := visit_ends hf ht
    obtain ⟨items', hrest⟩ := walkAll_ends hf mid fun r' hr' => h r' (List.mem_cons_of_mem _ hr')
    refine ⟨items', ?_⟩
    unfold walkAll
    rw [hn, Option.bind_some, htext]
    dsimp only
    rw [hmid]
    exact hrest

/-- What the list of items is: one for each node that is sent, found by the names that lead to it. -/
structure Walk (roots : List Root) (L : List (List Name × SourceTree)) (items : List Item) : Prop where
  /-- The nodes of the trees, each once. -/
  once : L.Perm (roots.flatMap fun r => r.source.listed [r.name])
  records : List.Forall₂ (fun x it => ∃ r ∈ roots, Records r.path x it) L items
  paths : (items.map fun it => it.entry.path).Nodup
  /-- What is below a node comes right behind it. -/
  heads : ∀ q ∈ L.map Prod.fst, Tree.Heads q (L.map Prod.fst)
  /-- Siblings come in the order of their names. -/
  sorted : Tree.Sorted (· < ·) (· ≠ []) (L.map Prod.fst)
  /-- Nothing is below what is not a directory. -/
  above : ∀ x ∈ L, ∀ y ∈ L, x.1 <+: y.1 → x.1 ≠ y.1 → ∃ info children, x.2 = .dir info children
  sanitized : ∀ x it, (x, it) ∈ L.zip items → it.entry.path.bytes.length ≤ MAX_PATH_LEN →
    sanitize it.entry.path.bytes = .ok x.1

theorem listed_root {r : Root} {x : List Name × SourceTree} (h : x ∈ r.source.listed [r.name]) (hr : Proper r.name) :
    ∃ qs, x.1 = r.name :: qs ∧ ∀ n ∈ x.1, Proper n := by
  obtain ⟨qs, hqs, hp⟩ := nodes_path (List.mem_filter.1 h).1
  refine ⟨qs, hqs, ?_⟩
  rw [hqs]
  intro n hn
  rcases List.mem_cons.1 hn with rfl | hn
  · exact hr
  · exact hp n hn

/-- The path with these components has no others. -/
theorem joinPath_inj {ps qs : List Name} (hp : ps ≠ []) (hq : qs ≠ []) (hps : ∀ n ∈ ps, Proper n)
    (hqs : ∀ n ∈ qs, Proper n) (h : joinPath ps = joinPath qs) : ps = qs := by
  have hsplit := congrArg (fun l => List.splitOn SLASH l) h
  unfold joinPath at hsplit
  rwa [List.splitOn_intercalate _ (fun n hn => (hps n hn).slash) hp,
    List.splitOn_intercalate _ (fun n hn => (hqs n hn).slash) hq] at hsplit

theorem records_paths {roots : List Root} {L : List (List Name × SourceTree)}
    (h : List.Forall₂ (fun x it => ∃ r ∈ roots, Records r.path x it) L items) :
    (items.map fun it => it.entry.path.bytes) = L.map fun x => joinPath x.1 := by
  induction h with
  | nil => rfl
  | cons hx _ ih =>
    obtain ⟨r, -, hx⟩ := hx
    rw [List.map_cons, List.map_cons, ih, hx.path]

/-- `walk` gives every directory, regular file and symlink of the trees once and in preorder, and no
path twice; and where no call fails and all names and targets are UTF-8, it gives something. -/
theorem walk_lists {roots : List Root} (hd : (roots.map Root.name).Nodup) :
    (∀ items, walk fault roots = .ok items → ∃ L, Walk roots L items) ∧
    ((∀ p, fault p = none) → (∀ r ∈ roots, (∃ n, fileName r.path = some n ∧ utf8 n = true) ∧ r.source.Text) →
      ∃ items, walk fault roots = .ok items) := by
  refine ⟨fun items h => ?_, fun hf ht => walkAll_ends hf [] ht⟩
  obtain ⟨new, kids, hnew, hrec, hnames, hproper, hperm, hlists⟩ := walkAll_adds h
  rw [List.nil_append] at hnew
  subst hnew
  have hirrefl : ∀ n : Name, ¬ n < n := List.lt_irrefl
  have hmap : (kids.flatMap Prod.snd).map Prod.fst = (kids.map fun k => (k.1, k.2.map Prod.fst)).flatMap Prod.snd := by
    rw [List.map_flatMap, List.flatMap_map]
  have hkid : ∀ j ∈ kids.map fun k => (k.1, k.2.map Prod.fst), Tree.Listing (· < ·) ([] ++ [j.1]) j.2 := by
    intro j hj
    obtain ⟨k, hk, rfl⟩ := List.mem_map.1 hj
    exact hlists k hk
  have hforest : Tree.Forest (· < ·) [] (kids.map fun k => (k.1, k.2.map Prod.fst)) := by
    refine ⟨?_, hkid⟩
    rw [List.map_map]
    show (kids.map Prod.fst).Nodup
    rw [hnames]
    exact hd
  have hnodup : ((kids.flatMap Prod.snd).map Prod.fst).Nodup := by
    rw [hmap]
    exact hforest.nodup fun k hk => (hkid k hk).nodup hirrefl
  have hmem : ∀ x ∈ kids.flatMap Prod.snd, ∃ r ∈ roots, x ∈ r.source.listed [r.name] := fun x hx =>
    List.mem_flatMap.1 (hperm.subset hx)
  have hcomps : ∀ x ∈ kids.flatMap Prod.snd, x.1 ≠ [] ∧ ∀ n ∈ x.1, Proper n := by
    intro x hx
    obtain ⟨r, hr, hx⟩ := hmem x hx
    obtain ⟨qs, hqs, hp⟩ := listed_root hx (hproper r hr)
    exact ⟨by rw [hqs]; simp, hp⟩
  refine ⟨kids.flatMap Prod.snd, hperm, hrec, ?_, ?_, ?_, ?_, ?_⟩
  · -- distinct components make distinct paths
    have hbytes : (items.map fun it => it.entry.path.bytes).Nodup := by
      rw [records_paths hrec]
      refine (List.Nodup.of_map _ hnodup).map_on fun x hx y hy he => ?_
      have hxy := joinPath_inj (hcomps x hx).1 (hcomps y hy).1 (hcomps x hx).2 (hcomps y hy).2 he
      exact List.inj_on_of_nodup_map hnodup hx hy hxy
    rw [show (fun it : Item => it.entry.path.bytes) = Str.bytes ∘ fun it : Item => it.entry.path from rfl,
      ← List.map_map] at hbytes
    exact List.Nodup.of_map _ hbytes
  · rw [hmap]
    exact hforest.heads fun k hk => (hkid k hk).heads hirrefl
  · rw [hmap]
    refine (hforest.sorted fun k hk => (hkid k hk).sorted hirrefl).imp fun {a b} h q n m ha hb hq => ?_
    exact h q n m ha hb ⟨List.nil_prefix, hq⟩
  · intro x hx y hy hxy hne
    obtain ⟨r, hr, hyr⟩ := hmem y hy
    obtain ⟨qs, hqs, -⟩ := listed_root hyr (hproper r hr)
    obtain ⟨t, ht⟩ := hxy
    obtain ⟨n, ps, hps⟩ := List.exists_cons_of_ne_nil (hcomps x hx).1
    rw [hqs, hps, List.cons_append] at ht
    obtain ⟨rfl, rfl⟩ := List.cons.inj ht
    have htail : t ≠ [] := by
      rintro rfl
      rw [List.append_nil] at hqs
      exact hne (hps.trans hqs.symm)
    obtain ⟨info, children, hdir⟩ := nodes_above (List.mem_filter.1 hyr).1 (r := ps) (t := t) hqs htail
    have hlist : (x.1, SourceTree.dir info children) ∈ kids.flatMap Prod.snd := by
      refine hperm.symm.subset (List.mem_flatMap.2 ⟨r, hr, List.mem_filter.2 ⟨?_, rfl⟩⟩)
      rw [hps]
      exact hdir
    have hsame := List.inj_on_of_nodup_map hnodup hx hlist rfl
    exact ⟨info, children, by rw [hsame]⟩
  · intro x it hz hlen
    obtain ⟨r, -, hx⟩ := List.forall₂_iff_zip.1 hrec |>.2 hz
    obtain ⟨hne, hp⟩ := hcomps x (List.of_mem_zip hz).1
    rw [hx.path] at hlen ⊢
    exact sanitize_joinPath hne hp hlen

/-- A directory with a link to itself, a file and a FIFO, and a file beside it. -/
def sample : List Root :=
  [⟨[47, 100], .dir ⟨0o755, 1, 0⟩
      [(⟨[108], by decide, by decide, by decide, by decide, by decide⟩, .symlink ⟨0o777, 2, 0⟩ [46]),
        (⟨[97], by decide, by decide, by decide, by decide, by decide⟩, .file ⟨0o644, -3, 5⟩ 7),
        (⟨[102], by decide, by decide, by decide, by decide, by decide⟩, .special ⟨0o600, 4, 0⟩)],
    by decide, .dir (by decide) (by
      intro c hc
      fin_cases hc
      exacts [.symlink, .file, .special])⟩,
    ⟨[98, 47], .file ⟨0o600, 6, 0⟩ 8, by decide, .file⟩]

theorem walk_lists_sample : ∃ items L, walk (fun _ => none) sample = .ok items ∧ Walk sample L items := by
  have hwalk := @walk_lists (fun _ => none) sample (by decide +kernel)
  obtain ⟨items, hitems⟩ := hwalk.2 (fun _ => rfl) (by
    intro r hr
    fin_cases hr
    · refine ⟨⟨[100], by decide +kernel, by decide +kernel⟩, .dir ?_ ?_⟩
      · decide +kernel
      · intro c hc
        fin_cases hc
        exacts [.symlink (by decide +kernel), .file, .special]
    · exact ⟨⟨[98], by decide +kernel, by decide +kernel⟩, .file⟩)
  obtain ⟨L, hL⟩ := hwalk.1 items hitems
  exact ⟨items, L, hitems, hL⟩

end Thunderflash.Send
