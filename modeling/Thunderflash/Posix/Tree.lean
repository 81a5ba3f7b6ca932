/-
The directories of a file system as a tree below one of them: what an open directory's path is
worth while entries come and go, and the few kinds of change a call can make to the table.
-/
import Thunderflash.Posix.Calls

namespace Posix

open Codec (Bytes)

namespace Fs

variable {fs fs' fs0 : Fs} {root lo : Nat}

/-- The directories of `fs` form a tree as seen from `root`, and names lead to inodes that exist. -/
structure DirTree (fs : Fs) (root : Nat) : Prop where
  base : fs.leaf root = some .dir
  parent : ∀ {a n a' n' b}, fs.leaf b = some .dir → fs.entry a n = some b → fs.entry a' n' = some b → a = a' ∧ n = n'
  top : ∀ {p}, resolve fs.entry root p = some root → p = []
  range : ∀ {d n i}, fs.entry d n = some i → i < fs.inodes.length

theorem DirTree.rooted (h : DirTree fs root) : Rooted fs.entry (fun i => fs.leaf i = some .dir) root :=
  ⟨h.base, dir_of_entry, h.parent, h.top⟩

/-- `d` is the directory at `ps` below `root`, reached through directories only. -/
structure Handle (fs : Fs) (root d : Nat) (ps : List Name) : Prop where
  path : resolve fs.entry root ps = some d
  dir : fs.leaf d = some .dir

theorem Handle.nil (h : DirTree fs root) : Handle fs root root [] := ⟨rfl, h.base⟩

theorem Handle.snoc {d i : Nat} {ps : List Name} {n : Name} (h : Handle fs root d ps) (he : fs.entry d n = some i)
    (hi : fs.leaf i = some .dir) : Handle fs root i (ps ++ [n]) :=
  ⟨by rw [resolve_snoc, h.path]; exact he, hi⟩

theorem Handle.resolve {d : Nat} {ps : List Name} (h : Handle fs root d ps) (n : Name) :
    Posix.resolve fs.entry root (ps ++ [n]) = fs.entry d n := by
  rw [resolve_snoc, h.path]; rfl

/-- A directory has one path. -/
theorem DirTree.inj (h : DirTree fs root) {d : Nat} {ps qs : List Name} (hp : Handle fs root d ps) (hq : Handle fs root d qs) :
    ps = qs := h.rooted.inj hp.dir hp.path hq.path

theorem handle_of_resolve {ps : List Name} {n : Name} {i : Nat} (h : Posix.resolve fs.entry root (ps ++ [n]) = some i) :
    ∃ d, Handle fs root d ps ∧ fs.entry d n = some i := by
  rw [resolve_snoc, Option.bind_eq_some_iff] at h
  obtain ⟨d, hd, he⟩ := h
  exact ⟨d, ⟨hd, dir_of_entry he⟩, he⟩

/-! ## Directories stay -/

/-- Every directory of `fs` is one of `fs'`, under the same name. -/
structure DirsKept (fs fs' : Fs) : Prop where
  leaf : ∀ {i}, fs.leaf i = some .dir → fs'.leaf i = some .dir
  entry : ∀ {d n i}, fs.leaf i = some .dir → fs.entry d n = some i → fs'.entry d n = some i

theorem DirsKept.refl (fs : Fs) : DirsKept fs fs := ⟨id, fun _ h => h⟩

theorem DirsKept.trans {fs1 fs2 fs3 : Fs} (h : DirsKept fs1 fs2) (h' : DirsKept fs2 fs3) : DirsKept fs1 fs3 :=
  ⟨fun hi => h'.leaf (h.leaf hi), fun hi he => h'.entry (h.leaf hi) (h.entry hi he)⟩

theorem DirsKept.resolve (h : DirsKept fs fs') {d : Nat} : ∀ {ps : List Name}, fs.leaf d = some .dir →
    Posix.resolve fs.entry root ps = some d → Posix.resolve fs'.entry root ps = some d := by
  intro ps
  induction ps using List.reverseRecOn generalizing d with
  | nil => exact fun _ h => h
  | append_singleton ps n ih =>
    intro hd hp
    obtain ⟨e, he, hn⟩ := handle_of_resolve hp
    rw [resolve_snoc, ih he.dir he.path]
    exact h.entry hd hn

theorem Handle.mono {d : Nat} {ps : List Name} (hp : Handle fs root d ps) (h : DirsKept fs fs') : Handle fs' root d ps :=
  ⟨h.resolve hp.dir hp.path, h.leaf hp.dir⟩

/-- Names only ever lead to nodes of `fs0` that led there in `fs0`. -/
def Faithful (fs0 fs : Fs) : Prop := ∀ {d n i}, i < fs0.inodes.length → fs.entry d n = some i → fs0.entry d n = some i

theorem Faithful.resolve (h : Faithful fs0 fs) {i : Nat} : ∀ {ps : List Name}, i < fs0.inodes.length →
    Posix.resolve fs.entry root ps = some i → Posix.resolve fs0.entry root ps = some i := by
  intro ps
  induction ps using List.reverseRecOn generalizing i with
  | nil => exact fun _ h => h
  | append_singleton ps n ih =>
    intro hi hp
    obtain ⟨e, he, hn⟩ := handle_of_resolve hp
    have hn0 := h hi hn
    rw [resolve_snoc, ih (lt_of_leaf (dir_of_entry hn0)) he.path]
    exact hn0

/-- Every node that `fs0` does not have has at most one name. -/
def Single (fs0 fs : Fs) : Prop := ∀ {i d n d' n'}, fs0.inodes.length ≤ i → fs.entry d n = some i →
  fs.entry d' n' = some i → d = d' ∧ n = n'

/-! ## What a call can do -/

/-- Only what inode `r` holds, or its mode or times, may differ. -/
structure Touch (fs fs' : Fs) (r : Nat) : Prop where
  entry : ∀ d n, fs'.entry d n = fs.entry d n
  dir : ∀ i, fs'.leaf i = some .dir ↔ fs.leaf i = some .dir
  other : ∀ {i}, i ≠ r → fs'.inodes[i]? = fs.inodes[i]?
  length : fs'.inodes.length = fs.inodes.length

/-- A call's change to the table, when it renames no directory and no node below `lo`. -/
inductive Change (lo : Nat) (fs fs' : Fs) : Prop
  | same : fs' = fs → Change lo fs fs'
  | touch {r : Nat} : Touch fs fs' r → Change lo fs fs'
  | create {d : Nat} {n : Name} {node : Node} {mode : UInt32} {now : Int64} : fs.leaf d = some .dir →
      fs.entry d n = none → Bare node → fs' = fs.create d n node mode now → Change lo fs fs'
  | unlink {d r : Nat} {n : Name} {now : Int64} : fs.leaf d = some .dir → fs.entry d n = some r →
      fs.leaf r ≠ some .dir → fs' = fs.unlink d n now → Change lo fs fs'
  | move {d r : Nat} {src dst : Name} {now : Int64} : fs.leaf d = some .dir → fs.entry d src = some r →
      fs.leaf r ≠ some .dir ∧ lo ≤ r → fs.entry d dst ≠ some r → (∀ j, fs.entry d dst = some j → fs.leaf j ≠ some .dir) →
      fs' = fs.move d src dst r now → Change lo fs fs'

theorem Change.kept (h : Change lo fs fs') : DirsKept fs fs' := by
  cases h with
  | same h => subst h; exact .refl _
  | touch h => exact ⟨(h.dir _).2, fun _ he => by rw [h.entry]; exact he⟩
  | create hd hn hb he =>
    subst he
    refine ⟨fun {i} hi => ?_, fun {e m i} hi hm => ?_⟩
    · rw [leaf_create, if_neg (by have := lt_of_leaf hi; omega)]; exact hi
    · rw [entry_create hd hb]
      split
      · rename_i hc
        obtain ⟨rfl, rfl⟩ := hc
        rw [hn] at hm; cases hm
      · exact hm
  | unlink hd hn hr he =>
    subst he
    refine ⟨fun {i} hi => by rw [leaf_unlink]; exact hi, fun {e m i} hi hm => ?_⟩
    rw [entry_unlink hd]
    split
    · rename_i hc
      obtain ⟨rfl, rfl⟩ := hc
      rw [hn] at hm
      cases hm
      exact absurd hi hr
    · exact hm
  | move hd hs hr hne hj he =>
    subst he
    refine ⟨fun {i} hi => by rw [leaf_move]; exact hi, fun {e m i} hi hm => ?_⟩
    rw [entry_move hd]
    split
    · rename_i hc
      obtain ⟨rfl, rfl⟩ := hc
      exact absurd hi (hj _ hm)
    · split
      · rename_i hc
        obtain ⟨rfl, rfl⟩ := hc
        rw [hs] at hm
        cases hm
        exact absurd hi hr.1
      · exact hm

/-- Directories that were there keep their one parent; a new one has one. -/
theorem DirTree.of_edges (h : DirTree fs root) (hk : ∀ {i}, fs.leaf i = some .dir → fs'.leaf i = some .dir)
    (hold : ∀ {d n i}, fs.leaf i = some .dir → fs'.entry d n = some i → fs.entry d n = some i)
    (hnew : ∀ {a n a' n' b}, fs'.leaf b = some .dir → fs.leaf b ≠ some .dir → fs'.entry a n = some b →
      fs'.entry a' n' = some b → a = a' ∧ n = n')
    (hrange : ∀ {d n i}, fs'.entry d n = some i → i < fs'.inodes.length) : DirTree fs' root := by
  have hres : ∀ {p : List Name} {i : Nat}, fs.leaf i = some .dir → Posix.resolve fs'.entry root p = some i →
      Posix.resolve fs.entry root p = some i := by
    intro p
    induction p using List.reverseRecOn with
    | nil => exact fun _ h => h
    | append_singleton p n ih =>
      intro i hi hp
      obtain ⟨e, he, hn⟩ := handle_of_resolve hp
      have hn0 := hold hi hn
      rw [resolve_snoc, ih (dir_of_entry hn0) he.path]
      exact hn0
  refine ⟨hk h.base, fun {a n a' n' b} hb h1 h2 => ?_, fun {p} hp => h.top (hres h.base hp), hrange⟩
  by_cases hb0 : fs.leaf b = some .dir
  · exact h.parent hb0 (hold hb0 h1) (hold hb0 h2)
  · exact hnew hb hb0 h1 h2

theorem Change.tree (h : Change lo fs fs') (ht : DirTree fs root) : DirTree fs' root := by
  have hk := h.kept
  cases h with
  | same h => subst h; exact ht
  | touch h =>
    refine ht.of_edges hk.leaf (fun _ he => by rw [h.entry] at he; exact he)
      (fun hb hb0 => absurd ((h.dir _).1 hb) hb0) fun he => ?_
    rw [h.entry] at he
    rw [h.length]
    exact ht.range he
  | @create d n node mode now hd hn hb he =>
    subst he
    refine ht.of_edges hk.leaf (fun {e m i} hi hm => ?_) (fun {a m a' m' b} hb' hb0 h1 h2 => ?_) fun {e m i} hm => ?_
    · rw [entry_create hd hb] at hm
      split at hm
      · cases hm; have := lt_of_leaf hi; omega
      · exact hm
    · rw [leaf_create] at hb'
      split at hb'
      · rename_i hbl
        subst hbl
        have hcell : ∀ {a m}, (fs.create d n node mode now).entry a m = some fs.inodes.length → a = d ∧ m = n := by
          intro a m hm
          rw [entry_create hd hb] at hm
          split at hm
          · assumption
          · exact absurd (ht.range hm) (by omega)
        exact ⟨(hcell h1).1.trans (hcell h2).1.symm, (hcell h1).2.trans (hcell h2).2.symm⟩
      · exact absurd hb' hb0
    · rw [entry_create hd hb] at hm
      rw [length_create]
      split at hm
      · cases hm; omega
      · have := ht.range hm; omega
  | unlink hd hn hr he =>
    subst he
    refine ht.of_edges hk.leaf (fun {e m i} _ hm => ?_) (fun hb hb0 => absurd (by rwa [leaf_unlink] at hb) hb0)
      fun {e m i} hm => ?_
    all_goals
      rw [entry_unlink hd] at hm
      split at hm
      · cases hm
    · exact hm
    · rw [length_unlink]; exact ht.range hm
  | move hd hs hr hne hj he =>
    subst he
    refine ht.of_edges hk.leaf (fun {e m i} hi hm => ?_) (fun hb hb0 => absurd (by rwa [leaf_move] at hb) hb0)
      fun {e m i} hm => ?_
    all_goals
      rw [entry_move hd] at hm
      split at hm
    · cases hm; exact absurd hi hr.1
    · split at hm
      · cases hm
      · exact hm
    · cases hm; rw [length_move]; exact ht.range hs
    · rw [length_move]
      split at hm
      · cases hm
      · exact ht.range hm

theorem Change.length_le (h : Change lo fs fs') : fs.inodes.length ≤ fs'.inodes.length := by
  cases h with
  | same h => rw [h]
  | touch h => rw [h.length]
  | create _ _ _ h => rw [h, length_create]; omega
  | unlink _ _ _ h => rw [h, length_unlink]
  | move _ _ _ _ _ h => rw [h, length_move]

theorem Change.single (h : Change lo fs fs') (ht : DirTree fs root) (hl : fs0.inodes.length ≤ fs.inodes.length)
    (hs : Single fs0 fs) : Single fs0 fs' := by
  intro i e m e' m' hi h1 h2
  cases h with
  | same h => subst h; exact hs hi h1 h2
  | touch h => rw [h.entry] at h1 h2; exact hs hi h1 h2
  | create hd hn hb he =>
    subst he
    rw [entry_create hd hb] at h1 h2
    split at h1 <;> split at h2
    · rename_i a b; exact ⟨a.1.trans b.1.symm, a.2.trans b.2.symm⟩
    · cases h1; exact absurd (ht.range h2) (by omega)
    · cases h2; exact absurd (ht.range h1) (by omega)
    · exact hs hi h1 h2
  | unlink hd hn hr he =>
    subst he
    rw [entry_unlink hd] at h1 h2
    split at h1 <;> split at h2
    · cases h1
    · cases h1
    · cases h2
    · exact hs hi h1 h2
  | move hd hsrc hr hne hj he =>
    subst he
    rw [entry_move hd] at h1 h2
    split at h1 <;> split at h2
    · rename_i a b; exact ⟨a.1.trans b.1.symm, a.2.trans b.2.symm⟩
    · cases h1
      split at h2
      · cases h2
      · rename_i hc
        -- the moved node had the old name only
        exact absurd (hs hi h2 hsrc) hc
    · cases h2
      split at h1
      · cases h1
      · rename_i hc; exact absurd (hs hi h1 hsrc) hc
    · split at h1
      · cases h1
      · split at h2
        · cases h2
        · exact hs hi h1 h2

theorem Change.faithful (h : Change fs0.inodes.length fs fs') (hl : fs0.inodes.length ≤ fs.inodes.length)
    (hf : Faithful fs0 fs) : Faithful fs0 fs' := by
  intro e m i hi hm
  cases h with
  | same h => subst h; exact hf hi hm
  | touch h => rw [h.entry] at hm; exact hf hi hm
  | create hd hn hb he =>
    subst he
    rw [entry_create hd hb] at hm
    split at hm
    · cases hm; omega
    · exact hf hi hm
  | unlink hd hn hr he =>
    subst he
    rw [entry_unlink hd] at hm
    split at hm
    · cases hm
    · exact hf hi hm
  | move hd hs hr hne hj he =>
    subst he
    rw [entry_move hd] at hm
    split at hm
    · cases hm; omega
    · split at hm
      · cases hm
      · exact hf hi hm

/-! ## Calls as changes -/

theorem Touch.update {i : Nat} {f : Inode → Inode} (hf : ∀ x ∈ fs.inodes[i]?, (f x).node = x.node) :
    Touch fs (fs.update i f) i :=
  ⟨entry_update hf, fun j => by rw [leaf_update hf], fun {j} hj => by simp [Fs.update, Ne.symm hj],
    by simp [Fs.update]⟩

theorem Touch.setFile {i : Nat} {b b' : Bytes} {now : Int64} (h : fs.leaf i = some (.file b)) :
    Touch fs (fs.update i (setNode (.file b') now)) i := by
  refine ⟨entry_setFile h, fun j => ?_, fun {j} hj => by simp [Fs.update, Ne.symm hj],
    by simp [Fs.update]⟩
  rw [leaf_setFile h]
  split
  · rename_i hj; subst hj; simp [h]
  · rfl

variable {um : UInt32} {now : Int64} {r : Nat}

/-- Every call but a rename of a directory is one of these changes. -/
theorem exec_change {sys : Sys} (h : fs.exec um now sys = .ok (fs', r))
    (hr : ∀ d src dst, sys = .renameat d src dst → fs.leaf r ≠ some .dir ∧ lo ≤ r) : Change lo fs fs' := by
  cases sys with
  | mkdirat d n mode =>
    obtain ⟨-, hd, hn, -, he⟩ := exec_mkdirat h
    exact .create hd hn (fun _ h => by cases h; rfl) he
  | openDir d n => exact .same (exec_openDir h).1
  | openExcl d n mode =>
    obtain ⟨-, hd, hn, -, he⟩ := exec_openExcl h
    exact .create hd hn (fun _ h => by cases h) he
  | openTrunc d n mode =>
    obtain ⟨-, hd, ⟨hn, -, he⟩ | ⟨b, -, hb, he⟩⟩ := exec_openTrunc h
    · exact .create hd hn (fun _ h => by cases h) he
    · subst he; exact .touch (Touch.setFile hb)
  | unlinkat d n =>
    obtain ⟨hd, hn, hl, he⟩ := exec_unlinkat h
    exact .unlink hd hn hl he
  | symlinkat target d n =>
    obtain ⟨-, hd, hn, -, he⟩ := exec_symlinkat h
    exact .create hd hn (fun _ h => by cases h) he
  | renameat d src dst =>
    obtain ⟨-, hd, hs, ⟨-, he⟩ | ⟨he, hne, hj⟩⟩ := exec_renameat h
    · exact .same he
    · exact .move hd hs (hr _ _ _ rfl) hne (hj (hr _ _ _ rfl).1) he
  | utimensat d n t =>
    obtain ⟨-, -, he⟩ := exec_utimensat h
    subst he; exact .touch (Touch.update fun _ _ => rfl)
  | write i off bytes =>
    obtain ⟨b, hb, -, he⟩ := exec_write h
    subst he; exact .touch (Touch.setFile hb)
  | fchmod i m =>
    obtain ⟨-, -, he⟩ := exec_fchmod h
    subst he; exact .touch (Touch.update fun _ _ => rfl)
  | futimens i t =>
    obtain ⟨-, -, he⟩ := exec_futimens h
    subst he; exact .touch (Touch.update fun _ _ => rfl)
  | fsync i => exact .same (exec_fsync h).1
  | fstat i => exact .same (exec_fstat h).1
  | fstatat d n => exact .same (exec_fstatat h).1

/-! ## Calls on the mode or the times -/

/-- Nothing but the mode or the times of inode `r` differs. -/
structure Meta (fs fs' : Fs) (r : Nat) : Prop extends Touch fs fs' r where
  leaf : ∀ i, fs'.leaf i = fs.leaf i

theorem Meta.update {i : Nat} {f : Inode → Inode} (hf : ∀ x ∈ fs.inodes[i]?, (f x).node = x.node) :
    Meta fs (fs.update i f) i := ⟨.update hf, leaf_update hf⟩

theorem utimensat_meta {d : Nat} {n : Name} {t : Int64} (h : fs.exec um now (.utimensat d n t) = .ok (fs', r)) :
    fs.entry d n = some r ∧ Meta fs fs' r ∧ (∀ i, fs'.mode i = fs.mode i) ∧
      (r < fs.inodes.length → fs'.mtime r = some t) := by
  obtain ⟨-, hn, rfl⟩ := exec_utimensat h
  refine ⟨hn, .update fun _ _ => rfl, fun i => ?_, fun hr => by rw [mtime_update, if_pos rfl]; simp [hr]⟩
  rw [mode_update]
  split <;> rfl

theorem fchmod_meta {i : Nat} {m : UInt32} (h : fs.exec um now (.fchmod i m) = .ok (fs', r)) :
    Meta fs fs' i ∧ fs'.mode i = some m := by
  obtain ⟨hi, -, rfl⟩ := exec_fchmod h
  exact ⟨.update fun _ _ => rfl, by rw [mode_update, if_pos rfl]; simp [hi]⟩

theorem futimens_meta {i : Nat} {t : Int64} (h : fs.exec um now (.futimens i t) = .ok (fs', r)) :
    Meta fs fs' i ∧ (∀ j, fs'.mode j = fs.mode j) ∧ fs'.mtime i = some t := by
  obtain ⟨hi, -, rfl⟩ := exec_futimens h
  refine ⟨.update fun _ _ => rfl, fun j => ?_, by rw [mtime_update, if_pos rfl]; simp [hi]⟩
  rw [mode_update]
  split <;> rfl

/-! ## Calls that make an inode -/

structure Creates (fs fs' : Fs) (d : Nat) (n : Name) (leaf : Leaf) (mode : UInt32) : Prop where
  dir : fs.leaf d = some .dir
  free : fs.entry d n = none
  short : n.length ≤ NAME_MAX
  entry : ∀ e m, fs'.entry e m = if e = d ∧ m = n then some fs.inodes.length else fs.entry e m
  leaf : ∀ j, fs'.leaf j = if j = fs.inodes.length then some leaf else fs.leaf j
  mode : ∀ j, fs'.mode j = if j = fs.inodes.length then some mode else fs.mode j
  other : ∀ {j}, j ≠ d → j < fs.inodes.length → fs'.inodes[j]? = fs.inodes[j]?

theorem Creates.of_create {d : Nat} {n : Name} {mode : UInt32} (node : Node) (hs : n.length ≤ NAME_MAX)
    (hd : fs.leaf d = some .dir) (hn : fs.entry d n = none) (hb : Bare node) :
    Creates fs (fs.create d n node mode now) d n node.leaf mode := by
  refine ⟨hd, hn, hs, entry_create hd hb, leaf_create fs d n node mode now, mode_create fs d n node mode now,
    fun {j} hj hl => ?_⟩
  unfold create update
  simp [Ne.symm hj, List.getElem?_append_left hl]

theorem Creates.leaf_new {d : Nat} {n : Name} {l : Leaf} {m : UInt32} (h : Creates fs fs' d n l m) :
    fs'.leaf fs.inodes.length = some l := by rw [h.leaf, if_pos rfl]

theorem mkdirat_creates {d : Nat} {n : Name} {mode : UInt32} (h : fs.exec um now (.mkdirat d n mode) = .ok (fs', r)) :
    r = fs.inodes.length ∧ Creates fs fs' d n .dir (mode &&& 0o777 &&& ~~~um) := by
  obtain ⟨hs, hd, hn, hr, rfl⟩ := exec_mkdirat h
  exact ⟨hr, .of_create (.dir []) hs hd hn (fun _ h => by cases h; rfl)⟩

theorem symlinkat_creates {d : Nat} {n : Name} {t : Bytes} (h : fs.exec um now (.symlinkat t d n) = .ok (fs', r)) :
    r = fs.inodes.length ∧ Creates fs fs' d n (.symlink t) (0o777 &&& ~~~um) := by
  obtain ⟨hs, hd, hn, hr, rfl⟩ := exec_symlinkat h
  exact ⟨hr, .of_create (.symlink t) hs hd hn (fun _ h => by cases h)⟩

theorem openExcl_creates {d : Nat} {n : Name} {mode : UInt32} (h : fs.exec um now (.openExcl d n mode) = .ok (fs', r)) :
    r = fs.inodes.length ∧ Creates fs fs' d n (.file []) (mode &&& 0o7777 &&& ~~~um) := by
  obtain ⟨hs, hd, hn, hr, rfl⟩ := exec_openExcl h
  exact ⟨hr, .of_create (.file []) hs hd hn (fun _ h => by cases h)⟩

theorem openTrunc_cases {d : Nat} {n : Name} {mode : UInt32} (h : fs.exec um now (.openTrunc d n mode) = .ok (fs', r)) :
    (r = fs.inodes.length ∧ Creates fs fs' d n (.file []) (mode &&& 0o7777 &&& ~~~um)) ∨
      ∃ b, fs.entry d n = some r ∧ fs.leaf r = some (.file b) ∧ fs' = fs.update r (setNode (.file []) now) := by
  obtain ⟨hs, hd, ⟨hn, hr, rfl⟩ | h⟩ := exec_openTrunc h
  · exact .inl ⟨hr, .of_create (.file []) hs hd hn (fun _ h => by cases h)⟩
  · exact .inr h

/-! ## Small trees -/

/-- No directory but those nothing leads to, and every name leads to an inode that exists. -/
def flat (fs : Fs) : Bool :=
  fs.inodes.all fun x =>
    match x.node with
    | .dir es => es.all fun e => decide (fs.leaf e.2 ≠ some .dir ∧ e.2 < fs.inodes.length)
    | _ => true

theorem DirTree.of_flat (hr : fs.leaf root = some .dir) (h : fs.flat = true) : DirTree fs root := by
  have hentry : ∀ {d n i}, fs.entry d n = some i → fs.leaf i ≠ some .dir ∧ i < fs.inodes.length := by
    intro d n i he
    unfold entry at he
    split at he
    · rename_i es hes
      obtain ⟨x, hx, hxes⟩ := Option.map_eq_some_iff.1 hes
      have hx' := List.all_eq_true.1 h x (List.mem_of_getElem? hx)
      rw [hxes] at hx'
      obtain ⟨a, b, rfl, -⟩ := List.lookup_eq_some_iff.1 he
      exact of_decide_eq_true (List.all_eq_true.1 hx' (n, i) (by simp))
    · cases he
  refine ⟨hr, fun hb he => absurd hb (hentry he).1, fun {p} hp => ?_, fun he => (hentry he).2⟩
  rcases List.eq_nil_or_concat' p with rfl | ⟨ps, n, rfl⟩
  · rfl
  · obtain ⟨d, -, he⟩ := handle_of_resolve hp
    exact absurd hr (hentry he).1

end Fs

end Posix
