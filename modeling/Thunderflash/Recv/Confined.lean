/-
Everything stays inside the destination: what a session binds or unbinds is an entry's path, an ancestor
of one that was missing or a scratch name that was free, in a directory reached through real directories
only, and all else is as it was.
-/
import Thunderflash.Recv.Cache

namespace Thunderflash.Recv

open Codec Posix Fs Lts

variable {cfg : Cfg} {c : Choice} {sh sh' : Shared} {fl fl' : Flow} {s s' : State} {fs0 : Fs} {d i k : Nat} {n : Name}

/-! ## One step -/

/-- What name `n` of directory `d`, changed between `s` and `s'`, is to the entries heard; `H` says which
directory is where. -/
inductive Meant (H : Nat → List Name → Prop) (s s' : State) (d : Nat) (n : Name) : Prop
  /-- The path of an entry, -/
  | path {k : Nat} {x : Entry × List Name} {ps : List Name} : x ∈ (s'.flow k).log.heard → x.2 = ps ++ [n] → H d ps →
      Meant H s s' d n
  /-- an ancestor of one that was missing, -/
  | ancestor {k : Nat} {x : Entry × List Name} {ps qs : List Name} : x ∈ (s'.flow k).log.heard → x.2 = ps ++ n :: qs →
      qs ≠ [] → H d ps → s.sh.fs.entry d n = none → Meant H s s' d n
  /-- a scratch name that was free, -/
  | drawn {k : Nat} {t : InFlight} : t ∈ (s'.flow k).log.scratches → d = t.parent → n = t.name → H d t.dirs →
      s.sh.fs.entry d n = none → Meant H s s' d n
  /-- or one drawn before, which is gone now. -/
  | dropped {k : Nat} {t : InFlight} : t ∈ (s.flow k).log.scratches → d = t.parent → n = t.name → H d t.dirs →
      s'.sh.fs.entry d n = none → Meant H s s' d n

section Step

variable (hD : Disk cfg fs0 s) (hf : ∀ i, FlowInv cfg (s.flow i)) (hs : FlowStep cfg c s.sh (s.flow i) sh' fl')

include hD hf hs

/-- The path of the entry under way. -/
theorem Meant.of_job {j : Job} {st : Stage} (hn : (s.flow i).net = .at j st) (ha : st.arrived) (hd : d = j.dir)
    (hm : n = j.name) : Meant (Handle s.sh.fs cfg.root) s (s.put i (sh', fl')) d n := by
  have hp := (hD.placed i).net
  rw [hn] at hp
  exact .path ((put_grows hs i).heard.subset ((hf i).heard_job hn)) (by rw [hm, Job.comps])
    (by rw [hd]; exact placed_arrived hp ha)

/-- The final name of a file. -/
theorem Meant.of_target {t : InFlight} (ht : t ∈ (s.flow i).log.born) (hd : d = t.parent) (hm : n = t.target) :
    Meant (Handle s.sh.fs cfg.root) s (s.put i (sh', fl')) d n := by
  obtain ⟨x, hx, hxp⟩ := (hf i).born_heard ht
  exact .path ((put_grows hs i).heard.subset hx) (by rw [hxp, hm]; rfl) (by rw [hd]; exact (hD.placed i).born t ht)

/-- Every name a step binds or unbinds is meant. -/
theorem FlowStep.meant (hne : sh'.fs.entry d n ≠ s.sh.fs.entry d n) :
    Meant (Handle s.sh.fs cfg.root) s (s.put i (sh', fl')) d n := by
  have he := hs.effect
  have hg := put_grows hs i
  have hscratch : ∀ {t}, t ∈ (s.flow i).log.scratches → d = t.parent → n = t.name → sh'.fs.entry d n = none →
      Meant (Handle s.sh.fs cfg.root) s (s.put i (sh', fl')) d n := by
    intro t ht hd hn hnone
    exact .dropped ht hd hn (by rw [hd]; exact (hD.placed i).born t (mem_scratches.1 ht).1) hnone
  cases hb : sh'.fs.entry d n with
  | some r =>
    rcases he.binds hb with hold | hbind
    · rw [hold] at hne
      exact absurd hb hne
    · cases hbind with
      | dir hn hd hm => exact .of_job hD hf hs hn trivial hd hm
      | link hn hd hm => exact .of_job hD hf hs hn trivial hd hm
      | place hn hd hm => exact .of_job hD hf hs hn trivial hd hm
      | @walk j done todo hn hd hfree =>
        have hp := (hD.placed i).net
        have hpc := (hf i).net.pc
        rw [hn] at hp hpc
        have hrest : todo ++ [j.name] ≠ [] := by simp
        refine .ancestor (hg.heard.subset ((hf i).heard_job hn)) ?_ hrest
          (by rw [hd]; exact hp) hfree
        simp [Job.comps, hpc.2.2]
      | @draw j tries hn hd hm hfree _ _ hh =>
        have hp := (hD.placed i).net
        rw [hn] at hp
        refine .drawn (k := i) (t := Flow.scratchFile j c r) ?_ hd hm (by rw [hd]; exact hp) hfree
        rw [put_flow, mem_scratches, hh.born]
        exact ⟨by simp, rfl⟩
      | commit hw hd _ _ =>
        obtain ⟨ht, -, htar⟩ := (hf i).rename_token hw
        exact .of_target hD hf hs ((hf i).token_born ht) hd htar.symm
  | none =>
    obtain ⟨r, hr⟩ : ∃ r, s.sh.fs.entry d n = some r := Option.ne_none_iff_exists'.1 fun h => hne (hb.trans h.symm)
    rcases he.unbinds hr with hold | hu
    · rw [hb] at hold
      cases hold
    · cases hu with
      | clear hc hd hm _ =>
        rcases hc with ⟨target, hn⟩ | hn <;> exact .of_job hD hf hs hn trivial hd hm
      | moved hw hd hm _ hnone =>
        obtain ⟨ht, hts, -⟩ := (hf i).rename_token hw
        exact hscratch (mem_scratches.2 ⟨(hf i).token_born ht, hts⟩) hd hm hnone
      | replaced hw hd _ _ =>
        obtain ⟨ht, -, htar⟩ := (hf i).rename_token hw
        exact .of_target hD hf hs ((hf i).token_born ht) hd htar.symm
      | @undo t ht hd hm _ hnone =>
        have htb := (hf i).token_born ht
        cases hts : t.scratch with
        | true => exact hscratch (mem_scratches.2 ⟨htb, hts⟩) hd hm hnone
        | false => exact .of_target hD hf hs htb hd (hm.trans (target_of_not_scratch hts).symm)
      | late hw hd hm hnone =>
        obtain ⟨hk, hts⟩ := (hf i).late_token hw
        exact hscratch (mem_scratches.2 ⟨(hf i).kept_born hk, hts⟩) hd hm hnone

end Step

/-! ## The whole session -/

/-- A name that leads elsewhere than before the session. -/
theorem Known.meant (hK : Known cfg fs0 s) (hf : ∀ i, FlowInv cfg (s.flow i)) (hne : s.sh.fs.entry d n ≠ fs0.entry d n) :
    Meant (Handle s.sh.fs cfg.root) (.init cfg fs0) s d n := by
  have hborn : ∀ {k t}, t ∈ (s.flow k).log.born → d = t.parent → n = t.target →
      Meant (Handle s.sh.fs cfg.root) (.init cfg fs0) s d n := by
    intro k t ht hd hn
    obtain ⟨x, hx, hxp⟩ := (hf k).born_heard ht
    exact .path hx (by rw [hxp, hn]; rfl) (by rw [hd]; exact (hK.placed k).born t ht)
  cases h0 : fs0.entry d n with
  | some r =>
    rcases hK.old.lost h0 with hb | hl
    · exact absurd (hb.trans h0.symm) hne
    · cases hl with
      | entry hx hxp hp _ => exact .path hx hxp hp
      | commit ht _ hd hn _ => exact hborn (mem_scratches.1 ht).1 hd hn
  | none =>
    obtain ⟨r, hr⟩ : ∃ r, s.sh.fs.entry d n = some r := Option.ne_none_iff_exists'.1 fun h => hne (h.trans h0.symm)
    have hnew : fs0.inodes.length ≤ r := by
      by_contra hlt
      rw [hK.faithful (by omega) hr] at h0
      cases h0
    cases hK.sourced hnew hr with
    | dir hx _ hp _ => exact .path hx rfl hp
    | ancestor hx hq hp _ => exact .ancestor hx rfl hq hp h0
    | link hx _ _ hxp hp _ => exact .path hx hxp hp
    | @scratch k t ht _ hd hn =>
      exact .drawn ht hd hn (by rw [hd]; exact (hK.placed k).born t (mem_scratches.1 ht).1) h0
    | commit ht _ _ hd hn => exact hborn (mem_scratches.1 ht).1 hd hn
    | place ht hts _ hd hn => exact hborn ht hd (hn.trans (target_of_not_scratch hts).symm)

/-- A step from `s` to `s'`, and the whole session up to it, stay inside the destination. -/
structure Confined (cfg : Cfg) (fs0 : Fs) (s s' : State) : Prop where
  step : ∀ d n, s'.sh.fs.entry d n ≠ s.sh.fs.entry d n → Meant (Handle s.sh.fs cfg.root) s s' d n
  names : ∀ d n, s'.sh.fs.entry d n ≠ fs0.entry d n → Meant (Handle s'.sh.fs cfg.root) (.init cfg fs0) s' d n
  dirs : ∀ i, fs0.leaf i = some .dir → s'.sh.fs.leaf i = some .dir ∧ s'.sh.fs.mode i = fs0.mode i
  /-- Only a file that an entry names is written in place. -/
  plain : ∀ i < fs0.inodes.length, fs0.leaf i ≠ some .dir →
    (s'.sh.fs.leaf i = fs0.leaf i ∧ s'.sh.fs.mode i = fs0.mode i) ∨
      ∃ k, ∃ x ∈ (s'.flow k).log.heard, resolve fs0.entry cfg.root x.2 = some i
  manifest : s'.main.early → s'.sh.fs = fs0

/-- The file `a` is announced. -/
def announcedA : List Act := List.flatten [opening single, [.deliver 0 (encodeAll [fileFrame pathA [8]])], netRuns 0 3]

/-- No entry heard has path `ps ++ [n]`, where `ps` leads to `d`, or goes on below such a path, and `n` is no
scratch name. -/
def Strange (root : Nat) (fs : Fs) (d : Nat) (n : Name) (l : Log) : Prop :=
  (∀ x ∈ l.heard, n ∉ x.2.dropLast ∧ (x.2.getLastD [] = n → Posix.resolve fs.entry root x.2.dropLast ≠ some d)) ∧
    ∀ t ∈ l.scratches, t.name ≠ n

instance (root : Nat) (fs : Fs) (d : Nat) (n : Name) (l : Log) : Decidable (Strange root fs d n l) := by
  unfold Strange; infer_instance

theorem Strange.not_meant (h : ∀ k, Strange cfg.root s.sh.fs d n (s.flow k).log)
    (h' : ∀ k, Strange cfg.root s.sh.fs d n (s'.flow k).log) : ¬ Meant (Handle s.sh.fs cfg.root) s s' d n := by
  rintro (⟨hx, hxp, hp⟩ | ⟨hx, hxp, hq, hp, -⟩ | ⟨ht, -, hn, -⟩ | ⟨ht, -, hn, -⟩)
  · obtain ⟨-, hlast⟩ := (h' _).1 _ hx
    rw [hxp] at hlast
    exact hlast (by simp) (by simpa using hp.path)
  · refine ((h' _).1 _ hx).1 ?_
    rw [hxp, List.dropLast_append_of_ne_nil (by simp), List.dropLast_cons_of_ne_nil hq]
    simp
  · exact (h' _).2 _ ht hn.symm
  · exact (h _).2 _ ht hn.symm

end Thunderflash.Recv
