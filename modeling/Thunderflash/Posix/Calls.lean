/-
What each call that succeeds has checked and what it does to the four things one can see of a file
system: the bindings of its directories and the kind, mode and mtime of its inodes.
-/
import Thunderflash.Posix.Fs

namespace Posix

open Codec (Bytes)

theorem lookup_filter_ne (es : List (Name × Nat)) (n m : Name) :
    (es.filter fun e => e.1 != n).lookup m = if m = n then none else es.lookup m := by
  induction es with
  | nil => simp
  | cons e es ih =>
    obtain ⟨k, i⟩ := e
    by_cases hk : k = n
    · subst hk
      have : (List.filter (fun e => e.1 != k) ((k, i) :: es)) = es.filter fun e => e.1 != k := by simp
      rw [this, ih]
      by_cases hm : m = k
      · simp [hm]
      · simp [hm, List.lookup_cons, beq_eq_false_iff_ne.2 hm]
    · have : (List.filter (fun e => e.1 != n) ((k, i) :: es)) = (k, i) :: es.filter fun e => e.1 != n := by
        simp [hk]
      rw [this, List.lookup_cons, List.lookup_cons, ih]
      by_cases hm : m = k
      · subst hm; simp [hk]
      · simp [beq_eq_false_iff_ne.2 hm]

namespace Fs

/-! ## Changing one inode -/

theorem node_update (fs : Fs) (i : Nat) (f : Inode → Inode) (j : Nat) :
    (fs.update i f).node j = if j = i then (fs.inodes[j]?).map fun x => (f x).node else fs.node j := by
  simp only [node, update, List.getElem?_modify]
  by_cases h : j = i
  · subst h
    cases fs.inodes[j]? <;> simp
  · simp [h, Ne.symm h]

theorem mode_update (fs : Fs) (i : Nat) (f : Inode → Inode) (j : Nat) :
    (fs.update i f).mode j = if j = i then (fs.inodes[j]?).map fun x => (f x).mode else fs.mode j := by
  simp only [mode, update, List.getElem?_modify]
  by_cases h : j = i
  · subst h
    cases fs.inodes[j]? <;> simp
  · simp [h, Ne.symm h]

theorem mtime_update (fs : Fs) (i : Nat) (f : Inode → Inode) (j : Nat) :
    (fs.update i f).mtime j = if j = i then (fs.inodes[j]?).map fun x => (f x).mtime else fs.mtime j := by
  simp only [mtime, update, List.getElem?_modify]
  by_cases h : j = i
  · subst h
    cases fs.inodes[j]? <;> simp
  · simp [h, Ne.symm h]

@[simp] theorem length_update (fs : Fs) (i : Nat) (f : Inode → Inode) :
    (fs.update i f).inodes.length = fs.inodes.length := by simp [update]

theorem leaf_eq_none_iff {fs : Fs} {i : Nat} : fs.leaf i = none ↔ fs.inodes.length ≤ i := by
  simp [leaf, node]

theorem lt_of_leaf {fs : Fs} {i : Nat} {l : Leaf} (h : fs.leaf i = some l) : i < fs.inodes.length := by
  by_contra hc
  rw [leaf_eq_none_iff.2 (by omega)] at h
  cases h

theorem leaf_dir_iff {fs : Fs} {i : Nat} : fs.leaf i = some .dir ↔ ∃ es, fs.node i = some (.dir es) := by
  unfold leaf
  rcases fs.node i with _ | (_ | _ | _ | _) <;> simp [Node.leaf]

theorem dir_of_entry {fs : Fs} {d : Nat} {n : Name} {i : Nat} (h : fs.entry d n = some i) :
    fs.leaf d = some .dir := by
  unfold entry at h
  rw [leaf_dir_iff]
  split at h
  · rename_i es he; exact ⟨es, he⟩
  · cases h

theorem entry_none_of_leaf {fs : Fs} {i : Nat} (h : fs.leaf i ≠ some .dir) (n : Name) : fs.entry i n = none := by
  by_contra hc
  obtain ⟨j, hj⟩ := Option.ne_none_iff_exists'.1 hc
  exact h (dir_of_entry hj)

theorem entry_congr {fs fs' : Fs} {d : Nat} (h : fs'.node d = fs.node d) (n : Name) :
    fs'.entry d n = fs.entry d n := by
  simp only [entry, h]

theorem leaf_congr {fs fs' : Fs} {d : Nat} (h : fs'.node d = fs.node d) : fs'.leaf d = fs.leaf d := by
  simp only [leaf, h]

/-! ## Touching the data, mode or mtime of an inode -/

theorem entry_update {fs : Fs} {i : Nat} {f : Inode → Inode} (hf : ∀ x ∈ fs.inodes[i]?, (f x).node = x.node)
    (d : Nat) (n : Name) : (fs.update i f).entry d n = fs.entry d n := by
  apply entry_congr
  rw [node_update]
  split
  · rename_i h
    subst h
    unfold node
    cases hx : fs.inodes[d]? with
    | none => rfl
    | some x => simp [hf x hx]
  · rfl

theorem leaf_update {fs : Fs} {i : Nat} {f : Inode → Inode} (hf : ∀ x ∈ fs.inodes[i]?, (f x).node = x.node)
    (j : Nat) : (fs.update i f).leaf j = fs.leaf j := by
  apply leaf_congr
  rw [node_update]
  split
  · rename_i h
    subst h
    unfold node
    cases hx : fs.inodes[j]? with
    | none => rfl
    | some x => simp [hf x hx]
  · rfl

theorem entry_setFile {fs : Fs} {i : Nat} {b b' : Bytes} {now : Int64} (h : fs.leaf i = some (.file b))
    (d : Nat) (n : Name) : (fs.update i (setNode (.file b') now)).entry d n = fs.entry d n := by
  by_cases hd : d = i
  · subst hd
    rw [@entry_none_of_leaf fs _ (by rw [h]; simp)]
    unfold entry
    rw [node_update, if_pos rfl]
    cases fs.inodes[d]? <;> simp [setNode]
  · apply entry_congr
    rw [node_update, if_neg hd]

theorem leaf_setFile {fs : Fs} {i : Nat} {b b' : Bytes} {now : Int64} (h : fs.leaf i = some (.file b))
    (j : Nat) : (fs.update i (setNode (.file b') now)).leaf j = if j = i then some (.file b') else fs.leaf j := by
  split
  · rename_i hj
    subst hj
    have := lt_of_leaf h
    unfold leaf
    rw [node_update, if_pos rfl]
    simp [this, setNode, Node.leaf]
  · rename_i hj
    apply leaf_congr
    rw [node_update, if_neg hj]

@[simp] theorem mode_setFile (fs : Fs) (i : Nat) (node : Node) (now : Int64) (j : Nat) :
    (fs.update i (setNode node now)).mode j = fs.mode j := by
  rw [mode_update]
  split
  · rename_i h; subst h; simp [mode, setNode]
  · rfl

theorem mtime_setFile {fs : Fs} {i : Nat} {node : Node} {now : Int64} (h : i < fs.inodes.length) (j : Nat) :
    (fs.update i (setNode node now)).mtime j = if j = i then some now else fs.mtime j := by
  rw [mtime_update]
  split
  · rename_i hj; subst hj; simp [setNode, h]
  · rfl

/-! ## Binding and unbinding names -/

section Dir

variable {fs : Fs} {d : Nat} (hd : fs.leaf d = some .dir)
include hd

theorem entry_bind (n : Name) (i : Nat) (now : Int64) (e : Nat) (m : Name) :
    (fs.update d (bind n i now)).entry e m = if e = d ∧ m = n then some i else fs.entry e m := by
  obtain ⟨es, hes⟩ := leaf_dir_iff.1 hd
  by_cases he : e = d
  · subst he
    unfold entry
    rw [node_update, if_pos rfl, hes]
    obtain ⟨x, hx, hn⟩ := Option.map_eq_some_iff.1 hes
    simp only [hx, Option.map_some, bind, hn, List.lookup_cons, lookup_filter_ne]
    by_cases hm : m = n
    · simp [hm]
    · simp [hm, beq_eq_false_iff_ne.2 hm]
  · rw [@entry_congr fs _ e (by rw [node_update, if_neg he]), if_neg (by tauto)]

theorem entry_unlink (n : Name) (now : Int64) (e : Nat) (m : Name) :
    (fs.unlink d n now).entry e m = if e = d ∧ m = n then none else fs.entry e m := by
  obtain ⟨es, hes⟩ := leaf_dir_iff.1 hd
  unfold unlink
  by_cases he : e = d
  · subst he
    unfold entry
    rw [node_update, if_pos rfl, hes]
    obtain ⟨x, hx, hn⟩ := Option.map_eq_some_iff.1 hes
    simp only [hx, Option.map_some, unbind, hn, lookup_filter_ne, true_and]
  · rw [@entry_congr fs _ e (by rw [node_update, if_neg he]), if_neg (by tauto)]

omit hd in
theorem leaf_bind (n : Name) (i : Nat) (now : Int64) (j : Nat) :
    (fs.update d (bind n i now)).leaf j = fs.leaf j := by
  unfold leaf
  rw [node_update]
  split
  · rename_i h
    subst h
    unfold node
    cases hx : fs.inodes[j]? with
    | none => rfl
    | some x => rcases hn : x.node <;> simp [bind, hn, Node.leaf]
  · rfl

omit hd in
theorem leaf_unlink (n : Name) (now : Int64) (j : Nat) : (fs.unlink d n now).leaf j = fs.leaf j := by
  unfold leaf unlink
  rw [node_update]
  split
  · rename_i h
    subst h
    unfold node
    cases hx : fs.inodes[j]? with
    | none => rfl
    | some x => rcases hn : x.node <;> simp [unbind, hn, Node.leaf]
  · rfl

omit hd in
theorem mode_bind (n : Name) (i : Nat) (now : Int64) (j : Nat) :
    (fs.update d (bind n i now)).mode j = fs.mode j := by
  rw [mode_update]
  split
  · rename_i h
    subst h
    unfold mode
    cases hx : fs.inodes[j]? with
    | none => rfl
    | some x => rcases hn : x.node <;> simp [bind, hn]
  · rfl

omit hd in
theorem mode_unlink (n : Name) (now : Int64) (j : Nat) : (fs.unlink d n now).mode j = fs.mode j := by
  unfold unlink
  rw [mode_update]
  split
  · rename_i h
    subst h
    unfold mode
    cases hx : fs.inodes[j]? with
    | none => rfl
    | some x => rcases hn : x.node <;> simp [unbind, hn]
  · rfl

omit hd in
theorem mtime_bind {n : Name} {i : Nat} {now : Int64} {j : Nat} (hj : fs.leaf j ≠ some .dir) :
    (fs.update d (bind n i now)).mtime j = fs.mtime j := by
  rw [mtime_update]
  split
  · rename_i h
    subst h
    unfold mtime
    cases hx : fs.inodes[j]? with
    | none => rfl
    | some x => rcases hn : x.node <;> simp_all [bind, leaf, node, Node.leaf]
  · rfl

omit hd in
theorem mtime_unlink {n : Name} {now : Int64} {j : Nat} (hj : fs.leaf j ≠ some .dir) :
    (fs.unlink d n now).mtime j = fs.mtime j := by
  unfold unlink
  rw [mtime_update]
  split
  · rename_i h
    subst h
    unfold mtime
    cases hx : fs.inodes[j]? with
    | none => rfl
    | some x => rcases hn : x.node <;> simp_all [unbind, leaf, node, Node.leaf]
  · rfl

end Dir

theorem move_eq (fs : Fs) (d : Nat) (src dst : Name) (i : Nat) (now : Int64) :
    fs.move d src dst i now = (fs.unlink d src now).update d (bind dst i now) := by
  unfold move unlink update
  congr 1
  rw [List.modify_modify_eq]
  rfl

theorem entry_move {fs : Fs} {d : Nat} (hd : fs.leaf d = some .dir) (src dst : Name) (i : Nat) (now : Int64)
    (e : Nat) (m : Name) : (fs.move d src dst i now).entry e m =
      if e = d ∧ m = dst then some i else if e = d ∧ m = src then none else fs.entry e m := by
  rw [move_eq, entry_bind (by rw [leaf_unlink]; exact hd), entry_unlink hd]

@[simp] theorem leaf_move (fs : Fs) (d : Nat) (src dst : Name) (i : Nat) (now : Int64) (j : Nat) :
    (fs.move d src dst i now).leaf j = fs.leaf j := by
  rw [move_eq, leaf_bind, leaf_unlink]

@[simp] theorem mode_move (fs : Fs) (d : Nat) (src dst : Name) (i : Nat) (now : Int64) (j : Nat) :
    (fs.move d src dst i now).mode j = fs.mode j := by
  rw [move_eq, mode_bind, mode_unlink]

theorem mtime_move {fs : Fs} {d : Nat} {src dst : Name} {i : Nat} {now : Int64} {j : Nat}
    (hj : fs.leaf j ≠ some .dir) : (fs.move d src dst i now).mtime j = fs.mtime j := by
  rw [move_eq, mtime_bind (by rw [leaf_unlink]; exact hj), mtime_unlink hj]

@[simp] theorem length_move (fs : Fs) (d : Nat) (src dst : Name) (i : Nat) (now : Int64) :
    (fs.move d src dst i now).inodes.length = fs.inodes.length := by simp [move]

@[simp] theorem length_unlink (fs : Fs) (d : Nat) (n : Name) (now : Int64) :
    (fs.unlink d n now).inodes.length = fs.inodes.length := by simp [unlink]

/-! ## New inodes -/

/-- A node without entries: what a call creates. -/
def Bare (node : Node) : Prop := ∀ es, node = .dir es → es = []

section Create

variable (fs : Fs) (d : Nat) (n : Name) (node : Node) (mode : UInt32) (now : Int64)

@[simp] theorem length_create : (fs.create d n node mode now).inodes.length = fs.inodes.length + 1 := by
  simp [create]

theorem node_append (x : Inode) (j : Nat) :
    (⟨fs.inodes ++ [x]⟩ : Fs).node j = if j = fs.inodes.length then some x.node else fs.node j := by
  unfold Fs.node
  rw [List.getElem?_append]
  by_cases h : j < fs.inodes.length
  · rw [if_pos h, if_neg (by omega)]
  · rw [if_neg h]
    by_cases h' : j = fs.inodes.length
    · simp [h']
    · rw [if_neg h', List.getElem?_eq_none (by simp; omega), List.getElem?_eq_none (by omega)]

theorem leaf_append (x : Inode) (j : Nat) :
    (⟨fs.inodes ++ [x]⟩ : Fs).leaf j = if j = fs.inodes.length then some x.node.leaf else fs.leaf j := by
  unfold leaf
  rw [node_append]
  split <;> rfl

theorem leaf_create (j : Nat) :
    (fs.create d n node mode now).leaf j = if j = fs.inodes.length then some node.leaf else fs.leaf j := by
  unfold create
  rw [leaf_bind, leaf_append]

theorem mode_create (j : Nat) :
    (fs.create d n node mode now).mode j = if j = fs.inodes.length then some mode else fs.mode j := by
  unfold create
  rw [mode_bind]
  unfold Fs.mode
  rw [List.getElem?_append]
  by_cases h : j < fs.inodes.length
  · rw [if_pos h, if_neg (by omega)]
  · rw [if_neg h]
    by_cases h' : j = fs.inodes.length
    · simp [h']
    · rw [if_neg h', List.getElem?_eq_none (by simp; omega), List.getElem?_eq_none (by omega)]

variable {fs d n node mode now}

theorem entry_create (hd : fs.leaf d = some .dir) (hb : Bare node) (e : Nat) (m : Name) :
    (fs.create d n node mode now).entry e m =
      if e = d ∧ m = n then some fs.inodes.length else fs.entry e m := by
  have hlt := lt_of_leaf hd
  unfold create
  rw [entry_bind (by rw [leaf_append, if_neg (by omega)]; exact hd)]
  congr 1
  by_cases he : e = fs.inodes.length
  · subst he
    rw [@entry_none_of_leaf fs _ (by rw [leaf_eq_none_iff.2 (le_refl _)]; simp)]
    unfold entry
    rw [node_append, if_pos rfl]
    rcases hn : node with es | _ | _ | _
    · simp [hb es hn]
    all_goals rfl
  · apply entry_congr
    rw [node_append, if_neg he]

theorem mtime_create {j : Nat} (hd : fs.leaf d = some .dir) (hj : fs.leaf j ≠ some .dir) :
    (fs.create d n node mode now).mtime j = if j = fs.inodes.length then some now else fs.mtime j := by
  have hlt := lt_of_leaf hd
  unfold create
  rw [mtime_update, if_neg (by rintro rfl; exact hj hd)]
  unfold mtime
  rw [List.getElem?_append]
  by_cases h : j < fs.inodes.length
  · rw [if_pos h, if_neg (by omega)]
  · rw [if_neg h]
    by_cases h' : j = fs.inodes.length
    · simp [h']
    · rw [if_neg h', List.getElem?_eq_none (by simp; omega), List.getElem?_eq_none (by omega)]

end Create

/-! ## What a call that succeeds has done -/

section Exec

variable {um : UInt32} {now : Int64} {fs fs' : Fs} {r : Nat}

theorem checkAt_ok {d : Nat} {n : Name} (h : fs.checkAt d n = .ok ()) :
    n.length ≤ NAME_MAX ∧ fs.leaf d = some .dir := by
  unfold checkAt at h
  split at h
  · cases h
  · split at h
    · exact ⟨by omega, by assumption⟩
    · cases h

theorem exec_mkdirat {d : Nat} {n : Name} {mode : UInt32} (h : fs.exec um now (.mkdirat d n mode) = .ok (fs', r)) :
    n.length ≤ NAME_MAX ∧ fs.leaf d = some .dir ∧ fs.entry d n = none ∧ r = fs.inodes.length ∧
      fs' = fs.create d n (.dir []) (mode &&& 0o777 &&& ~~~um) now := by
  simp only [exec] at h
  cases hc : fs.checkAt d n with
  | error e => simp [hc, Bind.bind, Except.bind] at h
  | ok u =>
    simp only [hc, Bind.bind, Except.bind] at h
    split at h
    · cases h
    · cases h; exact ⟨(checkAt_ok hc).1, (checkAt_ok hc).2, by assumption, rfl, rfl⟩

theorem exec_openExcl {d : Nat} {n : Name} {mode : UInt32}
    (h : fs.exec um now (.openExcl d n mode) = .ok (fs', r)) :
    n.length ≤ NAME_MAX ∧ fs.leaf d = some .dir ∧ fs.entry d n = none ∧ r = fs.inodes.length ∧
      fs' = fs.create d n (.file []) (mode &&& 0o7777 &&& ~~~um) now := by
  simp only [exec] at h
  cases hc : fs.checkAt d n with
  | error e => simp [hc, Bind.bind, Except.bind] at h
  | ok u =>
    simp only [hc, Bind.bind, Except.bind] at h
    split at h
    · cases h
    · cases h; exact ⟨(checkAt_ok hc).1, (checkAt_ok hc).2, by assumption, rfl, rfl⟩

theorem exec_symlinkat {d : Nat} {n : Name} {t : Bytes}
    (h : fs.exec um now (.symlinkat t d n) = .ok (fs', r)) :
    n.length ≤ NAME_MAX ∧ fs.leaf d = some .dir ∧ fs.entry d n = none ∧ r = fs.inodes.length ∧
      fs' = fs.create d n (.symlink t) (0o777 &&& ~~~um) now := by
  simp only [exec] at h
  cases hc : fs.checkAt d n with
  | error e => simp [hc, Bind.bind, Except.bind] at h
  | ok u =>
    simp only [hc, Bind.bind, Except.bind] at h
    split at h
    · cases h
    · cases h; exact ⟨(checkAt_ok hc).1, (checkAt_ok hc).2, by assumption, rfl, rfl⟩

theorem exec_openDir {d : Nat} {n : Name} (h : fs.exec um now (.openDir d n) = .ok (fs', r)) :
    fs' = fs ∧ n.length ≤ NAME_MAX ∧ fs.entry d n = some r ∧ fs.leaf r = some .dir := by
  simp only [exec] at h
  cases hc : fs.checkAt d n with
  | error e => simp [hc, Bind.bind, Except.bind] at h
  | ok u =>
    simp only [hc, Bind.bind, Except.bind] at h
    split at h
    · cases h
    · split at h <;> cases h
      exact ⟨rfl, (checkAt_ok hc).1, by assumption, by assumption⟩

theorem exec_openTrunc {d : Nat} {n : Name} {mode : UInt32}
    (h : fs.exec um now (.openTrunc d n mode) = .ok (fs', r)) :
    n.length ≤ NAME_MAX ∧ fs.leaf d = some .dir ∧
      ((fs.entry d n = none ∧ r = fs.inodes.length ∧
          fs' = fs.create d n (.file []) (mode &&& 0o7777 &&& ~~~um) now) ∨
        ∃ b, fs.entry d n = some r ∧ fs.leaf r = some (.file b) ∧ fs' = fs.update r (setNode (.file []) now)) := by
  simp only [exec] at h
  cases hc : fs.checkAt d n with
  | error e => simp [hc, Bind.bind, Except.bind] at h
  | ok u =>
    simp only [hc, Bind.bind, Except.bind] at h
    refine ⟨(checkAt_ok hc).1, (checkAt_ok hc).2, ?_⟩
    split at h
    · cases h; exact .inl ⟨by assumption, rfl, rfl⟩
    · split at h <;> cases h
      exact .inr ⟨_, by assumption, by assumption, rfl⟩

theorem exec_unlinkat {d : Nat} {n : Name} (h : fs.exec um now (.unlinkat d n) = .ok (fs', r)) :
    fs.leaf d = some .dir ∧ fs.entry d n = some r ∧ fs.leaf r ≠ some .dir ∧ fs' = fs.unlink d n now := by
  simp only [exec] at h
  cases hc : fs.checkAt d n with
  | error e => simp [hc, Bind.bind, Except.bind] at h
  | ok u =>
    simp only [hc, Bind.bind, Except.bind] at h
    split at h
    · cases h
    · split at h <;> cases h
      exact ⟨(checkAt_ok hc).2, by assumption, by assumption, rfl⟩

theorem replaces_ok {i j : Nat} (h : fs.replaces i j = .ok ()) (hi : fs.leaf i ≠ some .dir) :
    fs.leaf j ≠ some .dir := by
  unfold replaces at h
  rw [Ne, leaf_dir_iff] at hi ⊢
  rintro ⟨es, hj⟩
  rw [hj] at h
  rcases hn : fs.node i with _ | (es' | _ | _ | _) <;> simp [hn] at h hi

theorem exec_renameat {d : Nat} {src dst : Name} (h : fs.exec um now (.renameat d src dst) = .ok (fs', r)) :
    dst.length ≤ NAME_MAX ∧ fs.leaf d = some .dir ∧ fs.entry d src = some r ∧
      ((fs.entry d dst = some r ∧ fs' = fs) ∨
        (fs' = fs.move d src dst r now ∧ fs.entry d dst ≠ some r ∧
          (fs.leaf r ≠ some .dir → ∀ j, fs.entry d dst = some j → fs.leaf j ≠ some .dir))) := by
  simp only [exec] at h
  cases hc : fs.checkAt d src with
  | error e => simp [hc, Bind.bind, Except.bind] at h
  | ok u =>
    cases hc' : fs.checkAt d dst with
    | error e => simp [hc, hc', Bind.bind, Except.bind] at h
    | ok u' =>
      simp only [hc, hc', Bind.bind, Except.bind] at h
      refine ⟨(checkAt_ok hc').1, (checkAt_ok hc).2, ?_⟩
      split at h
      · cases h
      · rename_i i hi
        split at h
        · rename_i hn; cases h
          exact ⟨hi, .inr ⟨rfl, by rw [hn]; simp, fun _ j hj => by rw [hn] at hj; cases hj⟩⟩
        · rename_i j hj
          split at h
          · rename_i hij; cases h; subst hij; exact ⟨hi, .inl ⟨hj, rfl⟩⟩
          · rename_i hij
            cases hr : fs.replaces i j with
            | error e => rw [hr] at h; cases h
            | ok u =>
              rw [hr] at h; cases h
              refine ⟨hi, .inr ⟨rfl, ?_, fun hl k hk => ?_⟩⟩
              · rw [hj]; intro he; cases he; exact hij rfl
              · rw [hj] at hk; cases hk; exact replaces_ok hr hl

theorem exec_utimensat {d : Nat} {n : Name} {t : Int64} (h : fs.exec um now (.utimensat d n t) = .ok (fs', r)) :
    fs.leaf d = some .dir ∧ fs.entry d n = some r ∧ fs' = fs.update r fun x => { x with mtime := t } := by
  simp only [exec] at h
  cases hc : fs.checkAt d n with
  | error e => simp [hc, Bind.bind, Except.bind] at h
  | ok u =>
    simp only [hc, Bind.bind, Except.bind] at h
    split at h <;> cases h
    exact ⟨(checkAt_ok hc).2, by assumption, rfl⟩

theorem exec_write {i : Nat} {off : Nat} {bytes : Bytes} (h : fs.exec um now (.write i off bytes) = .ok (fs', r)) :
    ∃ b, fs.leaf i = some (.file b) ∧ r = i ∧
      fs' = fs.update i (setNode (.file (overwrite b off bytes)) now) := by
  simp only [exec] at h
  split at h <;> cases h
  exact ⟨_, by assumption, rfl, rfl⟩

theorem exec_fchmod {i : Nat} {m : UInt32} (h : fs.exec um now (.fchmod i m) = .ok (fs', r)) :
    i < fs.inodes.length ∧ r = i ∧ fs' = fs.update i fun x => { x with mode := m } := by
  simp only [exec] at h
  split at h <;> cases h
  exact ⟨by assumption, rfl, rfl⟩

theorem exec_futimens {i : Nat} {t : Int64} (h : fs.exec um now (.futimens i t) = .ok (fs', r)) :
    i < fs.inodes.length ∧ r = i ∧ fs' = fs.update i fun x => { x with mtime := t } := by
  simp only [exec] at h
  split at h <;> cases h
  exact ⟨by assumption, rfl, rfl⟩

theorem exec_fsync {i : Nat} (h : fs.exec um now (.fsync i) = .ok (fs', r)) : fs' = fs ∧ r = i := by
  simp only [exec] at h
  split at h <;> cases h
  exact ⟨rfl, rfl⟩

theorem exec_fstat {i : Nat} (h : fs.exec um now (.fstat i) = .ok (fs', r)) : fs' = fs ∧ r = i := by
  simp only [exec] at h
  split at h <;> cases h
  exact ⟨rfl, rfl⟩

theorem exec_fstatat {d : Nat} {n : Name} (h : fs.exec um now (.fstatat d n) = .ok (fs', r)) :
    fs' = fs ∧ fs.entry d n = some r := by
  simp only [exec] at h
  cases hc : fs.checkAt d n with
  | error e => simp [hc, Bind.bind, Except.bind] at h
  | ok u =>
    simp only [hc, Bind.bind, Except.bind] at h
    split at h <;> cases h
    exact ⟨rfl, by assumption⟩

theorem exec_openExcl_tooLong {d : Nat} {n : Name} {mode : UInt32}
    (h : fs.exec um now (.openExcl d n mode) = .error .ENAMETOOLONG) : NAME_MAX < n.length := by
  simp only [exec] at h
  cases hc : fs.checkAt d n with
  | error e =>
    simp only [hc, Bind.bind, Except.bind] at h
    cases h
    unfold checkAt at hc
    split at hc
    · assumption
    · split at hc <;> cases hc
  | ok u =>
    simp only [hc, Bind.bind, Except.bind] at h
    split at h <;> cases h

end Exec

end Fs

end Posix
