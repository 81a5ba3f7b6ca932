/-
What a path of the destination shows at any moment of a session, also of one that has failed or was killed:
what it showed before, what an entry made of it, or one of the few states in between.
-/
import Thunderflash.Recv.Heard
import Thunderflash.Recv.Outcome

namespace Thunderflash.Recv

open Codec Posix Fs Lts

variable {cfg : Cfg} {s : State} {fs0 : Fs} {p : List Name} {r : Nat}

/-- What path `p` shows, and on whose account. -/
inductive Shown (cfg : Cfg) (fs0 : Fs) (s : State) (p : List Name) : Prop
  | old : shows s.sh.fs cfg.root p = shows fs0 cfg.root p → Shown cfg fs0 s p
  /-- A File or Symlink entry read to its end has put its payload there. -/
  | sent {k : Nat} {fr : Frame} : (fr.entry, fr.comps) ∈ (s.flow k).log.heard → Carries cfg (s.flow k).log.got fr →
      fr.entry.kind ≠ .dir → fr.planted = (p, shows s.sh.fs cfg.root p) → Shown cfg fs0 s p
  /-- A directory of a Dir entry, or on the way to an entry. -/
  | dir {k : Nat} {x : Entry × List Name} : x ∈ (s.flow k).log.heard → p <+: x.2 → (p = x.2 → x.1.kind = .dir) →
      shows s.sh.fs cfg.root p = some .dir → Shown cfg fs0 s p
  /-- The scratch file of a File entry, beside its path. -/
  | scratch {k : Nat} {x : Entry × List Name} {draw : UInt32} {b : Bytes} : x ∈ (s.flow k).log.heard → x.1.kind = .file →
      p = x.2.dropLast ++ [scratchName (x.2.getLastD []) draw] → shows s.sh.fs cfg.root p = some (.file b) → Shown cfg fs0 s p
  /-- What stood at a Symlink entry's path is unlinked, and the link not yet made. -/
  | missing {k : Nat} {x : Entry × List Name} : x ∈ (s.flow k).log.heard → x.1.kind = .symlink → x.2 = p →
      shows s.sh.fs cfg.root p = none → Shown cfg fs0 s p
  /-- A file whose name is too long for a scratch name is written in place. -/
  | inPlace {k : Nat} {x : Entry × List Name} : x ∈ (s.flow k).log.heard → NAME_MAX < (p.getLastD []).length + 21 → x.2 = p →
      Shown cfg fs0 s p

section

variable (ht : fs0.DirTree cfg.root) (h : Reachable cfg fs0 s) (hU : Unique s)

include ht h hU

/-- What is new is an entry's. -/
theorem shown_new (hnew : fs0.inodes.length ≤ r) (hr : resolve s.sh.fs.entry cfg.root p = some r) : Shown cfg fs0 s p := by
  have hdrawn := (unique_disk ht h hU).1
  have hK := known ht h hdrawn
  have hf := fun k => flow_inv h k
  rcases List.eq_nil_or_concat' p with rfl | ⟨ps, n, rfl⟩
  · cases hr
    exact absurd (lt_of_leaf ht.base) (by omega)
  obtain ⟨d, hd, he⟩ := handle_of_resolve hr
  cases hK.sourced hnew he with
  | dir hx hk hps hl =>
    rw [hK.tree.inj hps hd] at hx
    exact .dir hx List.prefix_rfl (fun _ => hk) (shows_of hr hl)
  | @ancestor k e ps' qs hx hq hps hl =>
    rw [hK.tree.inj hps hd] at hx
    refine .dir hx ⟨qs, by simp⟩ (fun heq => ?_) (shows_of hr hl)
    have hlen := congrArg List.length heq
    simp only [List.length_append, List.length_cons, List.length_nil] at hlen
    exact absurd (List.length_eq_zero_iff.1 (show qs.length = 0 by omega)) hq
  | link hx hc hk hcomps hps hl =>
    rw [hK.tree.inj hps hd] at hcomps
    exact .sent hx hc (by rw [hk]; simp) (by rw [Frame.planted, hk, hcomps, shows_of hr hl])
  | @scratch k t ht' hfile hpar hn =>
    have hborn := (mem_scratches.1 ht').1
    have hplace := (hK.placed k).born t hborn
    rw [← hpar] at hplace
    obtain ⟨x, hx, hpath, hk⟩ := born_file h k t hborn
    obtain ⟨draw, hname⟩ := (hf k).scratch_name ht'
    obtain ⟨b, hl⟩ := hK.file hborn
    rw [hfile] at hl
    refine @Shown.scratch _ _ _ _ k x draw b hx hk ?_ (shows_of hr hl)
    rw [hpath, InFlight.path, List.dropLast_concat, List.getLastD_concat, hK.tree.inj hplace hd, hn, hname]
  | @commit k t ht' hk hfile hpar hn =>
    have hs := mem_scratches.1 ht'
    obtain ⟨fr, hfr, hkind, hcomps, hl⟩ := (hf k).kept_frame (contents_inv h hK.sole) hk hs.2
    have hplace := (hK.placed k).born t hs.1
    rw [← hpar] at hplace
    have hpath : fr.comps = ps ++ [n] := by rw [hcomps, InFlight.path, hK.tree.inj hplace hd, hn]
    rw [hfile] at hl
    refine .sent ((hf k).net.log.heard.subset (List.mem_map_of_mem (f := fun fr : Frame => (fr.entry, fr.comps)) hfr))
      ((hf k).carries hfr) (by rw [hkind]; simp) ?_
    rw [Frame.planted, hkind, hpath, shows_of hr hl]
  | @place k t ht' hs _ hpar hn =>
    have hplace := (hK.placed k).born t ht'
    rw [← hpar] at hplace
    obtain ⟨x, hx, hpath⟩ := (hf k).born_heard ht'
    refine .inPlace hx ?_ ?_
    · rw [List.getLastD_concat, hn]
      exact (hf k).long ht' hs
    · rw [hpath, InFlight.path, hK.tree.inj hplace hd, hn, target_of_not_scratch hs]

/-- What no longer leads anywhere is about to become a link, or a file written in place. -/
theorem shown_lost (hr : resolve s.sh.fs.entry cfg.root p = none) : Shown cfg fs0 s p := by
  have hK := known ht h (unique_disk ht h hU).1
  cases hr0 : resolve fs0.entry cfg.root p with
  | none => exact .old (by simp [shows, hr, hr0])
  | some r =>
    rcases List.eq_nil_or_concat' p with rfl | ⟨ps, n, rfl⟩
    · cases hr
    obtain ⟨d, hd0, he0⟩ := handle_of_resolve hr0
    have hd := hd0.mono hK.dirs
    rw [hd.resolve] at hr
    rcases hK.old.lost he0 with he | hl
    · rw [hr] at he
      cases he
    · cases hl with
      | @entry k x ps' hx hxp hps hk =>
        rw [hK.tree.inj hps hd] at hxp
        by_cases hlong : NAME_MAX < n.length + 21
        · exact .inPlace hx (by rw [List.getLastD_concat]; exact hlong) hxp
        · have hne := hk.resolve_right hlong
          -- a Dir entry takes nothing away
          rcases (stand_inv ht h hU).2.names (by simp) hr0 with hstand | ⟨k', y, hy, hyp, hky⟩
          · rw [hd.resolve, hr] at hstand
            cases hstand
          · obtain ⟨rfl, rfl⟩ := hU.paths.eq hx hy (hxp.trans hyp.symm)
            have hfr := (heard_inv h k).framed (flow_inv h k).net.log hx
            refine .missing hx ?_ hxp (by simp [shows, hd.resolve, hr])
            cases hkind : x.1.kind with
            | symlink => rfl
            | file => exact absurd hkind hne
            | dir => exact absurd hkind hky
            | end_ => exact absurd hkind hfr.kind
      | commit _ _ _ _ he =>
        rw [hr] at he
        cases he

variable (h0 : Unshared fs0)

include h0

/-- What was there before is as it was, or written in place. -/
theorem shown_old (hold : r < fs0.inodes.length) (hr : resolve s.sh.fs.entry cfg.root p = some r) : Shown cfg fs0 s p := by
  have hK := known ht h (unique_disk ht h hU).1
  have hr0 := Faithful.resolve hK.faithful hold hr
  have hsame : s.sh.fs.leaf r = fs0.leaf r → Shown cfg fs0 s p := fun he => .old (by simp [shows, hr, hr0, he])
  by_cases hdir : fs0.leaf r = some .dir
  · exact hsame ((hK.dirs.leaf hdir).trans hdir.symm)
  · rcases hK.preserved.inode hold hdir with he | hch
    · exact hsame (leaf_of_inode he).1
    · cases hch with
      | times _ _ _ hl _ => exact hsame hl
      | @place k x hx hlong hxr =>
        -- a name this long is the file's only one
        obtain ⟨qs, m, hc⟩ : ∃ qs m, x.2 = qs ++ [m] :=
          ⟨_, _, (List.dropLast_append_getLast (sanitize_ok ((flow_inv h k).net.log.sane _ hx)).1).symm⟩
        rw [hc] at hxr hlong
        rw [List.getLastD_concat] at hlong
        obtain ⟨d, hd, he⟩ := handle_of_resolve hxr
        rcases List.eq_nil_or_concat' p with rfl | ⟨ps, n, rfl⟩
        · cases hr0
          exact absurd ht.base hdir
        · obtain ⟨d', hd', he'⟩ := handle_of_resolve hr0
          obtain ⟨rfl, rfl⟩ := h0 hlong he he'
          refine .inPlace hx (by rw [List.getLastD_concat]; exact hlong) ?_
          rw [hc, ht.inj hd hd']

/-- At every moment of a session whose entries have distinct paths, a path shows what it showed before or what an entry made
of it, or it is one of a scratch file, of a link about to be made or of a file written in place. -/
theorem shown : Shown cfg fs0 s p := by
  cases hr : resolve s.sh.fs.entry cfg.root p with
  | none => exact shown_lost ht h hU hr
  | some r =>
    by_cases hold : r < fs0.inodes.length
    · exact shown_old ht h hU h0 hold hr
    · exact shown_new ht h hU (Nat.le_of_not_lt hold) hr

end

end Thunderflash.Recv
