/-
What one step of a flow does to the disk, name by name and inode by inode: which names it can bind
and unbind, which inodes it can write, and on what grounds.
-/
import Thunderflash.Recv.Steps
import Thunderflash.Posix.Tree

namespace Thunderflash.Recv

open Codec Posix Fs

variable {cfg : Cfg} {c : Choice} {sh sh' : Shared} {fl fl' : Flow} {d i : Nat} {n : Name}

/-- The stages that remove the entry's own name. -/
def NetPc.Clears (pc : NetPc) (j : Job) : Prop :=
  (∃ target, pc = .at j (.linkUnlink target)) ∨ pc = .at j .placeUnlink

/-- Name `n` of directory `d` is newly bound to `i`. -/
inductive Binds (cfg : Cfg) (c : Choice) (sh : Shared) (fl : Flow) (sh' : Shared) (fl' : Flow) (d : Nat) (n : Name)
    (i : Nat) : Prop
  | dir {j : Job} : fl.net = .at j .dirMk → d = j.dir → n = j.name → sh.fs.entry d n = none →
      i = sh.fs.inodes.length → sh'.fs.leaf i = some .dir → Binds cfg c sh fl sh' fl' d n i
  | walk {j : Job} {done todo : List Name} : fl.net = .at j (.walkMk done n todo) → d = j.dir →
      sh.fs.entry d n = none → i = sh.fs.inodes.length → sh'.fs.leaf i = some .dir → Binds cfg c sh fl sh' fl' d n i
  | link {j : Job} {target : Bytes} : fl.net = .at j (.linkMake target) → d = j.dir → n = j.name →
      sh.fs.entry d n = none → i = sh.fs.inodes.length → sh'.fs.leaf i = some (.symlink target) →
      Binds cfg c sh fl sh' fl' d n i
  | draw {j : Job} {tries : Nat} : fl.net = .at j (.tempCreate tries) → d = j.dir → n = scratchName j.name c.draw →
      sh.fs.entry d n = none → i = sh.fs.inodes.length → sh'.fs.leaf i = some (.file []) →
      Hands fl fl' [Flow.scratchFile j c i] [] [] → Binds cfg c sh fl sh' fl' d n i
  | place {j : Job} {again : Bool} : fl.net = .at j (.placeCreate again) → d = j.dir → n = j.name →
      sh.fs.entry d n = none → i = sh.fs.inodes.length → sh'.fs.leaf i = some (.file []) →
      Hands fl fl' [Flow.placedFile j i] [] [] → Binds cfg c sh fl sh' fl' d n i
  | commit {t : InFlight} : fl.writer = .rename t n → d = t.parent → sh.fs.entry t.parent t.name = some i →
      Hands fl fl' [] [t] [] → Binds cfg c sh fl sh' fl' d n i

/-- Name `n` of directory `d` was bound, and is not any more, or to something else. -/
inductive Unbinds (cfg : Cfg) (c : Choice) (sh : Shared) (fl : Flow) (sh' : Shared) (fl' : Flow) (d : Nat) (n : Name) : Prop
  | clear {j : Job} : fl.net.Clears j → d = j.dir → n = j.name → sh'.fs.entry d n = none →
      Unbinds cfg c sh fl sh' fl' d n
  | moved {t : InFlight} {final : Name} : fl.writer = .rename t final → d = t.parent → n = t.name →
      Hands fl fl' [] [t] [] → sh'.fs.entry d n = none → Unbinds cfg c sh fl sh' fl' d n
  | replaced {t : InFlight} : fl.writer = .rename t n → d = t.parent → Hands fl fl' [] [t] [] →
      sh'.fs.entry d n = sh.fs.entry d t.name → Unbinds cfg c sh fl sh' fl' d n
  | undo {t : InFlight} : t ∈ fl.tokens → d = t.parent → n = t.name → Hands fl fl' [] [] [t] →
      sh'.fs.entry d n = none → Unbinds cfg c sh fl sh' fl' d n
  | late {t : InFlight} {e : Err} : fl.writer = .lateDrop t e → d = t.parent → n = t.name →
      sh'.fs.entry d n = none → Unbinds cfg c sh fl sh' fl' d n

theorem Creates.binds {fs fs' : Fs} {d e : Nat} {n m : Name} {l : Leaf} {mode : UInt32} (h : Creates fs fs' d n l mode)
    (hb : fs'.entry e m = some i) : fs.entry e m = some i ∨ (e = d ∧ m = n ∧ i = fs.inodes.length ∧ fs'.leaf i = some l) := by
  rw [h.entry] at hb
  split at hb
  · rename_i hc
    cases hb
    exact .inr ⟨hc.1, hc.2, rfl, h.leaf_new⟩
  · exact .inl hb

/-- What one step binds. -/
theorem Effect.binds (h : Effect cfg c sh fl sh' fl') (hb : sh'.fs.entry d n = some i) :
    sh.fs.entry d n = some i ∨ Binds cfg c sh fl sh' fl' d n i := by
  cases h with
  | still hfs | keep hfs | leave hfs => rw [hfs] at hb; exact .inl hb
  | mkdir hd hpc =>
    obtain ⟨-, hc⟩ := mkdirat_creates hd.exec
    refine (Creates.binds hc hb).imp id ?_
    rintro ⟨rfl, rfl, hi, hl⟩
    rcases hpc with ⟨hn, hd, hm, -⟩ | ⟨done, todo, hn, hd, -⟩
    · exact .dir hn hd hm hc.free hi hl
    · exact .walk hn hd hc.free hi hl
  | link hd hpc =>
    obtain ⟨-, hc⟩ := symlinkat_creates hd.exec
    refine (Creates.binds hc hb).imp id ?_
    rintro ⟨rfl, rfl, hi, hl⟩
    exact .link hpc rfl rfl hc.free hi hl
  | draw hd hpc hh =>
    obtain ⟨rfl, hc⟩ := openExcl_creates hd.exec
    refine (Creates.binds hc hb).imp id ?_
    rintro ⟨rfl, rfl, rfl, hl⟩
    exact .draw hpc rfl rfl hc.free rfl hl hh
  | place hd hpc hh =>
    rcases openTrunc_cases hd.exec with ⟨rfl, hc⟩ | ⟨b, -, hl, he⟩
    · refine (Creates.binds hc hb).imp id ?_
      rintro ⟨rfl, rfl, rfl, hl⟩
      exact .place hpc rfl rfl hc.free rfl hl hh
    · rw [he, entry_setFile hl] at hb
      exact .inl hb
  | clear hd | undo hd | late hd =>
    obtain ⟨hdir, -, -, he⟩ := exec_unlinkat hd.exec
    rw [he, entry_unlink hdir] at hb
    split at hb
    · cases hb
    · exact .inl hb
  | date hd =>
    rw [(utimensat_meta hd.exec).2.1.entry] at hb
    exact .inl hb
  | fill hd =>
    obtain ⟨b, hl, -, he⟩ := exec_write hd.exec
    rw [he, entry_setFile hl] at hb
    exact .inl hb
  | chmod hd =>
    rw [(fchmod_meta hd.exec).1.entry] at hb
    exact .inl hb
  | stamp hd =>
    rw [(futimens_meta hd.exec).1.entry] at hb
    exact .inl hb
  | commit hd hpc hh =>
    obtain ⟨-, hdir, hsrc, ⟨-, he⟩ | ⟨he, -, -⟩⟩ := exec_renameat hd.exec
    · rw [he] at hb; exact .inl hb
    · rw [he, entry_move hdir] at hb
      split at hb
      · rename_i hc
        obtain ⟨rfl, rfl⟩ := hc
        cases hb
        exact .inr (.commit hpc rfl hsrc hh)
      · split at hb
        · cases hb
        · exact .inl hb

/-- What one step unbinds. -/
theorem Effect.unbinds (h : Effect cfg c sh fl sh' fl') (hb : sh.fs.entry d n = some i) :
    sh'.fs.entry d n = some i ∨ Unbinds cfg c sh fl sh' fl' d n := by
  have hcreate : ∀ {e m l mode}, Creates sh.fs sh'.fs e m l mode → sh'.fs.entry d n = some i := by
    intro e m l mode hc
    rw [hc.entry]
    split
    · rename_i hcell
      obtain ⟨rfl, rfl⟩ := hcell
      rw [hc.free] at hb; cases hb
    · exact hb
  have hunlink : ∀ {e m now}, sh.fs.leaf e = some .dir → sh'.fs = sh.fs.unlink e m now →
      sh'.fs.entry d n = some i ∨ (d = e ∧ n = m ∧ sh'.fs.entry d n = none) := by
    intro e m now hdir he
    rw [he, entry_unlink hdir]
    split
    · rename_i hcell; exact .inr ⟨hcell.1, hcell.2, rfl⟩
    · exact .inl hb
  cases h with
  | still hfs | keep hfs | leave hfs => rw [hfs]; exact .inl hb
  | mkdir hd => exact .inl (hcreate (mkdirat_creates hd.exec).2)
  | link hd => exact .inl (hcreate (symlinkat_creates hd.exec).2)
  | draw hd => exact .inl (hcreate (openExcl_creates hd.exec).2)
  | place hd =>
    rcases openTrunc_cases hd.exec with ⟨-, hc⟩ | ⟨b, -, hl, he⟩
    · exact .inl (hcreate hc)
    · rw [he, entry_setFile hl]; exact .inl hb
  | clear hd hpc =>
    obtain ⟨hdir, -, -, he⟩ := exec_unlinkat hd.exec
    exact (hunlink hdir he).imp_right fun ⟨h1, h2, h3⟩ => .clear hpc h1 h2 h3
  | undo hd ht hh =>
    obtain ⟨hdir, -, -, he⟩ := exec_unlinkat hd.exec
    exact (hunlink hdir he).imp_right fun ⟨h1, h2, h3⟩ => .undo ht h1 h2 hh h3
  | late hd hpc =>
    obtain ⟨hdir, -, -, he⟩ := exec_unlinkat hd.exec
    exact (hunlink hdir he).imp_right fun ⟨h1, h2, h3⟩ => .late hpc h1 h2 h3
  | date hd =>
    rw [(utimensat_meta hd.exec).2.1.entry]; exact .inl hb
  | fill hd =>
    obtain ⟨b, hl, -, he⟩ := exec_write hd.exec
    rw [he, entry_setFile hl]; exact .inl hb
  | chmod hd =>
    rw [(fchmod_meta hd.exec).1.entry]; exact .inl hb
  | stamp hd =>
    rw [(futimens_meta hd.exec).1.entry]; exact .inl hb
  | commit hd hpc hh =>
    obtain ⟨-, hdir, hsrc, ⟨-, he⟩ | ⟨he, hne, -⟩⟩ := exec_renameat hd.exec
    · rw [he]; exact .inl hb
    · have hent := entry_move hdir
      rw [he, hent]
      split
      · rename_i hcell
        obtain ⟨rfl, rfl⟩ := hcell
        exact .inr (.replaced hpc rfl hh (by rw [he, hent, if_pos ⟨rfl, rfl⟩, hsrc]))
      · rename_i hcell
        split
        · rename_i hcell'
          exact .inr (.moved hpc hcell'.1 hcell'.2 hh (by rw [he, hent, if_neg hcell, if_pos hcell']))
        · exact .inl hb

/-! ## Inodes -/

/-- Inode `i`, which exists and is no directory, is changed. -/
inductive Writes (cfg : Cfg) (c : Choice) (sh : Shared) (fl : Flow) (sh' : Shared) (fl' : Flow) (i : Nat) : Prop
  | place {j : Job} {again : Bool} {b : Bytes} : fl.net = .at j (.placeCreate again) → sh.fs.entry j.dir j.name = some i →
      sh.fs.leaf i = some (.file b) → sh'.fs.leaf i = some (.file []) → Hands fl fl' [Flow.placedFile j i] [] [] →
      Writes cfg c sh fl sh' fl' i
  | fill {o : Cursor} {b bytes rest : Bytes} : fl.writer = .write o (bytes ++ rest) → i = o.t.file →
      sh.fs.leaf i = some (.file b) → sh'.fs.leaf i = some (.file (overwrite b o.off bytes)) →
      bytes ≠ [] → fl'.writer = .write ⟨o.t, o.off + bytes.length⟩ rest → Writes cfg c sh fl sh' fl' i
  | chmod {t : InFlight} : fl.writer = .chmod t → i = t.file → sh'.fs.leaf i = sh.fs.leaf i →
      sh'.fs.mode i = some (t.mode &&& 0o777) → Writes cfg c sh fl sh' fl' i
  | stamp {t : InFlight} : fl.writer = .stamp t → i = t.file → sh'.fs.leaf i = sh.fs.leaf i →
      sh'.fs.mode i = sh.fs.mode i → sh'.fs.mtime i = some t.mtime → Writes cfg c sh fl sh' fl' i
  | date {j : Job} : fl.net = .at j .dirStamp ∨ fl.net = .at j .linkStamp → sh.fs.entry j.dir j.name = some i →
      sh'.fs.leaf i = sh.fs.leaf i → sh'.fs.mode i = sh.fs.mode i → sh'.fs.mtime i = some j.entry.mtime →
      Writes cfg c sh fl sh' fl' i

theorem inode_update_ne {fs : Fs} {r j : Nat} {f : Inode → Inode} (h : j ≠ r) :
    (fs.update r f).inodes[j]? = fs.inodes[j]? := by simp [Fs.update, Ne.symm h]

/-- Which inodes a step can write. -/
theorem Effect.writes (h : Effect cfg c sh fl sh' fl') (hi : i < sh.fs.inodes.length) (hdir : sh.fs.leaf i ≠ some .dir) :
    sh'.fs.inodes[i]? = sh.fs.inodes[i]? ∨ Writes cfg c sh fl sh' fl' i := by
  have hcreate : ∀ {e m l mode}, Creates sh.fs sh'.fs e m l mode → sh'.fs.inodes[i]? = sh.fs.inodes[i]? :=
    fun hc => hc.other (by rintro rfl; exact hdir hc.dir) hi
  have hunlink : ∀ {e m now}, sh.fs.leaf e = some .dir → sh'.fs = sh.fs.unlink e m now →
      sh'.fs.inodes[i]? = sh.fs.inodes[i]? := by
    intro e m now he h'
    rw [h']
    exact inode_update_ne (by rintro rfl; exact hdir he)
  cases h with
  | still hfs | keep hfs | leave hfs => rw [hfs]; exact .inl rfl
  | mkdir hd => exact .inl (hcreate (mkdirat_creates hd.exec).2)
  | link hd => exact .inl (hcreate (symlinkat_creates hd.exec).2)
  | draw hd => exact .inl (hcreate (openExcl_creates hd.exec).2)
  | @place j again r hd hpc hh =>
    rcases openTrunc_cases hd.exec with ⟨-, hc⟩ | ⟨b, hn, hl, he⟩
    · exact .inl (hcreate hc)
    · by_cases hir : i = r
      · subst hir
        exact .inr (.place hpc hn hl (by rw [he, leaf_setFile hl, if_pos rfl]) hh)
      · rw [he]; exact .inl (inode_update_ne hir)
  | clear hd | undo hd | late hd =>
    obtain ⟨he, -, -, h'⟩ := exec_unlinkat hd.exec
    exact .inl (hunlink he h')
  | @date j r hd hpc =>
    obtain ⟨hn, hm, hmode, hmt⟩ := utimensat_meta hd.exec
    by_cases hir : i = r
    · subst hir; exact .inr (.date hpc hn (hm.leaf i) (hmode i) (hmt hi))
    · exact .inl (hm.other hir)
  | @fill o bytes rest r hd hpc hne hw hs =>
    obtain ⟨b, hl, rfl, he⟩ := exec_write hd.exec
    by_cases hir : i = o.t.file
    · subst hir
      exact .inr (.fill hpc rfl hl (by rw [he, leaf_setFile hl, if_pos rfl]) hne hw)
    · rw [he]; exact .inl (inode_update_ne hir)
  | @chmod t r hd hpc =>
    obtain ⟨hm, hmode⟩ := fchmod_meta hd.exec
    by_cases hir : i = t.file
    · subst hir; exact .inr (.chmod hpc rfl (hm.leaf _) hmode)
    · exact .inl (hm.other hir)
  | @stamp t r hd hpc =>
    obtain ⟨hm, hmode, hmt⟩ := futimens_meta hd.exec
    by_cases hir : i = t.file
    · subst hir; exact .inr (.stamp hpc rfl (hm.leaf _) (hmode _) hmt)
    · exact .inl (hm.other hir)
  | commit hd hpc hh =>
    obtain ⟨-, he, -, ⟨-, h'⟩ | ⟨h', -, -⟩⟩ := exec_renameat hd.exec
    · rw [h']; exact .inl rfl
    · rw [h']; exact .inl (inode_update_ne (by rintro rfl; exact hdir he))

/-- The only call that changes the mode of an inode is the writer's `fchmod`. -/
theorem Effect.mode (h : Effect cfg c sh fl sh' fl') (hi : i < sh.fs.inodes.length) :
    sh'.fs.mode i = sh.fs.mode i ∨ ∃ t, fl.writer = .chmod t ∧ t.file = i ∧ sh'.fs.mode i = some (t.mode &&& 0o777) := by
  have hcreate : ∀ {e m l mode}, Creates sh.fs sh'.fs e m l mode → sh'.fs.mode i = sh.fs.mode i := by
    intro e m l mode hc
    rw [hc.mode, if_neg (by omega)]
  cases h with
  | still hfs | keep hfs | leave hfs => rw [hfs]; exact .inl rfl
  | mkdir hd => exact .inl (hcreate (mkdirat_creates hd.exec).2)
  | link hd => exact .inl (hcreate (symlinkat_creates hd.exec).2)
  | draw hd => exact .inl (hcreate (openExcl_creates hd.exec).2)
  | place hd =>
    rcases openTrunc_cases hd.exec with ⟨-, hc⟩ | ⟨b, -, hb, he⟩
    · exact .inl (hcreate hc)
    · rw [he, mode_update]; left; split <;> rfl
  | clear hd | undo hd | late hd =>
    obtain ⟨-, -, -, he⟩ := exec_unlinkat hd.exec
    rw [he, mode_unlink]; exact .inl rfl
  | date hd => exact .inl ((utimensat_meta hd.exec).2.2.1 i)
  | fill hd =>
    obtain ⟨b, -, -, he⟩ := exec_write hd.exec
    rw [he, mode_update]; left; split <;> rfl
  | @chmod t r hd hw =>
    obtain ⟨hm, hmode⟩ := fchmod_meta hd.exec
    by_cases hir : i = t.file
    · subst hir; exact .inr ⟨t, hw, rfl, hmode⟩
    · left; unfold Fs.mode; rw [hm.other hir]
  | stamp hd => exact .inl ((futimens_meta hd.exec).2.1 i)
  | commit hd =>
    obtain ⟨-, -, -, ⟨-, he⟩ | ⟨he, -, -⟩⟩ := exec_renameat hd.exec
    · rw [he]; exact .inl rfl
    · rw [he, mode_move]; exact .inl rfl

/-! ## Files created -/

/-- `t` is created in this step. -/
inductive Opens (cfg : Cfg) (c : Choice) (sh : Shared) (fl : Flow) (sh' : Shared) (t : InFlight) : Prop
  | draw {j : Job} {tries : Nat} : fl.net = .at j (.tempCreate tries) → t = Flow.scratchFile j c sh.fs.inodes.length →
      Creates sh.fs sh'.fs j.dir (scratchName j.name c.draw) (.file [])
        ((j.entry.mode ||| 0o600) &&& 0o7777 &&& ~~~cfg.umask) → Opens cfg c sh fl sh' t
  | place {j : Job} {again : Bool} : fl.net = .at j (.placeCreate again) →
      t = Flow.placedFile j sh.fs.inodes.length →
      Creates sh.fs sh'.fs j.dir j.name (.file []) ((j.entry.mode ||| 0o600) &&& 0o7777 &&& ~~~cfg.umask) →
      Opens cfg c sh fl sh' t
  | reuse {j : Job} {again : Bool} {i : Nat} {b : Bytes} : fl.net = .at j (.placeCreate again) →
      t = Flow.placedFile j i → sh.fs.entry j.dir j.name = some i → sh.fs.leaf i = some (.file b) →
      sh'.fs = sh.fs.update i (setNode (.file []) c.now) → j.name.length ≤ NAME_MAX → Opens cfg c sh fl sh' t

/-- A step creates one file or none. -/
theorem Effect.born (h : Effect cfg c sh fl sh' fl') :
    (fl'.log.born = fl.log.born ∧ ∀ t ∈ fl'.tokens, t ∈ fl.tokens) ∨
      ∃ t, Opens cfg c sh fl sh' t ∧ fl'.log.born = fl.log.born ++ [t] ∧ ∀ u ∈ fl'.tokens, u ∈ fl.tokens ∨ u = t := by
  have hnone : ∀ {kept undone}, Hands fl fl' [] kept undone →
      fl'.log.born = fl.log.born ∧ ∀ t ∈ fl'.tokens, t ∈ fl.tokens := by
    intro kept undone hh
    refine ⟨by simpa using hh.born, fun t ht => ?_⟩
    have := hh.tokens.subset (List.mem_append_left _ ht)
    simpa using this
  have hone : ∀ {t}, Hands fl fl' [t] [] [] → fl'.log.born = fl.log.born ++ [t] ∧ ∀ u ∈ fl'.tokens, u ∈ fl.tokens ∨ u = t := by
    intro t hh
    refine ⟨hh.born, fun u hu => ?_⟩
    have := hh.tokens.subset (List.mem_append_left _ hu)
    simpa using this
  cases h with
  | draw hd hpc hh =>
    obtain ⟨rfl, hc⟩ := openExcl_creates hd.exec
    exact .inr ⟨_, .draw hpc rfl hc, hone hh⟩
  | place hd hpc hh =>
    rcases openTrunc_cases hd.exec with ⟨rfl, hc⟩ | ⟨b, hn, hl, he⟩
    · exact .inr ⟨_, .place hpc rfl hc, hone hh⟩
    · exact .inr ⟨_, .reuse hpc rfl hn hl he (exec_openTrunc hd.exec).1, hone hh⟩
  | stamp _ _ h => rcases h with h | ⟨-, h⟩ <;> exact .inl (hnone h)
  | _ => exact .inl (hnone (by assumption))

/-- Regular files stay regular files. -/
theorem Effect.file (h : Effect cfg c sh fl sh' fl') {b : Bytes} (hl : sh.fs.leaf i = some (.file b)) :
    ∃ b', sh'.fs.leaf i = some (.file b') := by
  rcases h.writes (lt_of_leaf hl) (by rw [hl]; simp) with he | hw
  · exact ⟨b, by unfold Fs.leaf Fs.node at hl ⊢; rw [he]; exact hl⟩
  · cases hw with
    | place _ _ _ h => exact ⟨_, h⟩
    | fill _ _ _ h => exact ⟨_, h⟩
    | chmod _ _ h | stamp _ _ h => exact ⟨b, h.trans hl⟩
    | date _ _ h => exact ⟨b, h.trans hl⟩

theorem Opens.file {t : InFlight} (h : Opens cfg c sh fl sh' t) : sh'.fs.leaf t.file = some (.file []) := by
  cases h with
  | draw _ ht hc => subst ht; exact hc.leaf_new
  | place _ ht hc => subst ht; exact hc.leaf_new
  | reuse _ ht _ hl he => subst ht; rw [he]; simp [leaf_setFile hl, Flow.placedFile]

/-- Every step is one of the changes the tree of directories survives, when a file that is renamed
is still under its scratch name. -/
theorem Effect.change {lo : Nat} (h : Effect cfg c sh fl sh' fl')
    (hmove : ∀ t final r, fl.writer = .rename t final → sh.fs.entry t.parent t.name = some r →
      sh.fs.leaf r ≠ some .dir ∧ lo ≤ r) : Change lo sh.fs sh'.fs := by
  cases h with
  | still hfs | keep hfs | leave hfs => exact .same hfs
  | commit hd hpc =>
    obtain ⟨-, -, hsrc, -⟩ := exec_renameat hd.exec
    exact exec_change hd.exec fun _ _ _ _ => hmove _ _ _ hpc hsrc
  | mkdir hd | clear hd | link hd | date hd | draw hd | place hd | fill hd | chmod hd | stamp hd | undo hd | late hd =>
    exact exec_change hd.exec fun _ _ _ h => by cases h

end Thunderflash.Recv
