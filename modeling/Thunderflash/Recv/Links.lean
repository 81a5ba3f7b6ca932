/-
The links of a session: what a Symlink entry has made stays at its path, with the target that came,
as long as the entries have distinct paths.
-/
import Thunderflash.Recv.Dirs

namespace Thunderflash.Recv

open Codec Posix Fs Lts Thunderflash.Recv.Flow

variable {cfg : Cfg} {c : Choice} {sh sh' : Shared} {fl fl' : Flow} {s s' : State} {fs0 : Fs} {j : Job} {fr : Frame}

/-! ## Links made -/

namespace Flow

/-- The flow has made the link that `fr` describes. -/
def Linked (fl : Flow) (fr : Frame) : Prop :=
  fr.entry.kind = .symlink ∧ (fr ∈ fl.log.done ∨
    ∃ j, (fl.net = .at j .linkStamp ∨ fl.net = .at j .register) ∧ fr = frameOf j fl.log)

/-- The thread is not between a link's `symlinkat` and its stamp. -/
def Unlinked (fl : Flow) : Prop := ∀ j, fl.net ≠ .at j .linkStamp

theorem fail_unlinked (fl : Flow) (e : Err) : (fl.fail e).Unlinked := by
  intro j
  simp [fail]

theorem goto_unlinked {st : Stage} (fl : Flow) (j : Job) (h : st ≠ .linkStamp) : (fl.goto j st).Unlinked := by
  intro k
  simp [goto, h]

theorem dispatch_unlinked (fl : Flow) (j : Job) : (fl.dispatch j).Unlinked := by
  unfold dispatch
  split
  · exact goto_unlinked _ _ (by simp)
  · exact goto_unlinked _ _ (by simp)
  · exact goto_unlinked _ _ (by simp)
  · exact fail_unlinked _ _

theorem made_unlinked (fl : Flow) (j : Job) : (fl.made cfg j).Unlinked := by
  unfold made
  split
  · exact goto_unlinked _ _ (by simp)
  · intro k
    simp [complete]

theorem linkText_unlinked (fl : Flow) (j : Job) (target : Bytes) : (fl.linkText j target).Unlinked := by
  unfold linkText
  split
  · exact goto_unlinked _ _ (by simp)
  · exact fail_unlinked _ _

theorem pump_unlinked (fl : Flow) (j : Job) (r : Nat) : (fl.pump cfg j r).Unlinked := by
  unfold pump
  apply goto_unlinked
  split
  · simp
  · split <;> simp

theorem start_unlinked (fl : Flow) (e : Entry) : (fl.start cfg e).Unlinked := by
  unfold start
  split
  · exact fail_unlinked _ _
  · dsimp only
    split
    · split
      · exact dispatch_unlinked _ _
      · exact goto_unlinked _ _ (by simp)
    · exact goto_unlinked _ _ (by simp)

theorem send_unlinked {m : Msg} {next gone : Flow → Flow} (hs : fl.send cfg m next gone = some fl')
    (hn : ∀ fl, (next fl).Unlinked) (hg : ∀ fl, (gone fl).Unlinked) : fl'.Unlinked := by
  rcases send_some hs with ⟨-, rfl⟩ | ⟨-, -, rfl⟩
  · exact hg _
  · exact hn _

theorem netLocal_unlinked (h : fl.netLocal cfg c sh = some (sh', fl')) : fl'.Unlinked := by
  unfold netLocal at h
  split at h
  case h_1 =>
    split at h <;> cases h
    · exact fail_unlinked _ _
    · intro j
      dsimp only
      split <;> simp
  case h_2 =>
    split at h
    · cases h; exact fail_unlinked _ _
    · split at h <;> cases h
      exact fail_unlinked _ _
    · cases h; exact fail_unlinked _ _
    · cases h
      intro j
      simp
    · cases h; exact start_unlinked _ _
  case h_3 =>
    split at h <;> cases h
    · exact fail_unlinked _ _
    · exact dispatch_unlinked _ _
    · exact goto_unlinked _ _ (by simp)
  case h_4 =>
    obtain ⟨r, -, h⟩ := Option.map_eq_some_iff.1 h
    cases r <;> cases h
    · exact fail_unlinked _ _
    · dsimp only
      split
      · exact goto_unlinked _ _ (by simp)
      · exact linkText_unlinked _ _ _
  case h_5 =>
    obtain ⟨r, -, h⟩ := Option.map_eq_some_iff.1 h
    cases r <;> cases h
    · exact fail_unlinked _ _
    · dsimp only
      split
      · exact linkText_unlinked _ _ _
      · exact fail_unlinked _ _
  case h_6 =>
    split at h <;> cases h
    exact fail_unlinked _ _
  case h_7 =>
    obtain ⟨fl1, h1, h⟩ := Option.map_eq_some_iff.1 h
    cases h
    exact send_unlinked h1 (fun _ => pump_unlinked _ _ _) fun _ => goto_unlinked _ _ (by simp)
  case h_8 =>
    split at h
    · cases h; exact goto_unlinked _ _ (by simp)
    · split at h <;> cases h
      exact fail_unlinked _ _
  case h_9 =>
    split at h
    · cases h; exact fail_unlinked _ _
    · split at h
      · cases h; exact goto_unlinked _ _ (by simp)
      · split at h <;> cases h
        exact fail_unlinked _ _
  case h_10 =>
    obtain ⟨fl1, h1, h⟩ := Option.map_eq_some_iff.1 h
    cases h
    exact send_unlinked h1 (fun _ => pump_unlinked _ _ _) fun _ => fail_unlinked _ _
  case h_11 =>
    obtain ⟨fl1, h1, h⟩ := Option.map_eq_some_iff.1 h
    cases h
    exact send_unlinked h1 (fun _ => goto_unlinked _ _ (by simp)) fun _ => fail_unlinked _ _
  case h_12 =>
    split at h
    · cases h; exact goto_unlinked _ _ (by simp)
    · split at h <;> cases h
      exact fail_unlinked _ _
    · cases h
  case h_13 =>
    obtain ⟨r, -, h⟩ := Option.map_eq_some_iff.1 h
    cases r <;> cases h
    · exact fail_unlinked _ _
    · dsimp only
      split
      · exact goto_unlinked _ _ (by simp)
      · exact fail_unlinked _ _
  case h_14 =>
    obtain ⟨fl1, h1, h⟩ := Option.map_eq_some_iff.1 h
    cases h
    refine send_unlinked h1 (fun _ => ?_) fun _ => fail_unlinked _ _
    intro j
    simp [complete]
  case h_15 => cases h

/-- The one step that comes to a link's stamp is the `symlinkat` that made the link. -/
theorem netStep_linked (h : fl.netStep cfg c sh = some (sh', fl')) (hn : fl'.net = .at j .linkStamp) :
    ∃ target i, fl.net = .at j (.linkMake target) ∧ Did cfg c sh (.symlinkat target j.dir j.name) i sh' ∧ fl'.log = fl.log := by
  unfold netStep at h
  split at h
  · rename_i sys hreq
    have h := Option.some.inj h
    unfold netResume at h
    split at h
    case h_7 k target hk =>
      rw [hk] at hreq
      simp only [netRequest] at hreq
      split at hreq
      · cases hreq
      · obtain rfl := Option.some.inj hreq
        split at h
        · rename_i i hr
          obtain ⟨hsh, hfl⟩ := Prod.mk.inj h
          subst hfl
          obtain rfl : k = j := by simpa [goto] using hn
          refine ⟨target, i, hk, ?_, rfl⟩
          rw [← hsh]
          exact (call_ok hr).2
        · obtain ⟨-, rfl⟩ := Prod.mk.inj h
          exact absurd hn (fail_unlinked _ _ _)
    case h_1 =>
      split at h <;> obtain ⟨-, rfl⟩ := Prod.mk.inj h
      · cases hn
      · exact absurd hn (fail_unlinked _ _ _)
    case h_2 =>
      split at h <;> obtain ⟨-, rfl⟩ := Prod.mk.inj h
      · exact absurd hn (goto_unlinked _ _ (by simp) _)
      · exact absurd hn (goto_unlinked _ _ (by simp) _)
      · exact absurd hn (fail_unlinked _ _ _)
    case h_3 =>
      split at h <;> obtain ⟨-, rfl⟩ := Prod.mk.inj h
      · exact absurd hn (dispatch_unlinked _ _ _)
      · exact absurd hn (goto_unlinked _ _ (by simp) _)
      · exact absurd hn (fail_unlinked _ _ _)
    case h_4 =>
      split at h <;> obtain ⟨-, rfl⟩ := Prod.mk.inj h
      · exact absurd hn (goto_unlinked _ _ (by simp) _)
      · exact absurd hn (goto_unlinked _ _ (by simp) _)
      · exact absurd hn (fail_unlinked _ _ _)
    case h_5 =>
      obtain ⟨-, rfl⟩ := Prod.mk.inj h
      exact absurd hn (made_unlinked _ _ _)
    case h_6 =>
      obtain ⟨-, rfl⟩ := Prod.mk.inj h
      exact absurd hn (goto_unlinked _ _ (by simp) _)
    case h_8 =>
      obtain ⟨-, rfl⟩ := Prod.mk.inj h
      exact absurd hn (made_unlinked _ _ _)
    case h_9 =>
      split at h <;> obtain ⟨-, rfl⟩ := Prod.mk.inj h
      · cases hn
      · exact absurd hn (fail_unlinked _ _ _)
    case h_10 =>
      split at h <;> obtain ⟨-, rfl⟩ := Prod.mk.inj h
      · exact absurd hn (goto_unlinked _ _ (by simp) _)
      · exact absurd hn (goto_unlinked _ _ (by simp) _)
      · exact absurd hn (goto_unlinked _ _ (by simp) _)
      · exact absurd hn (fail_unlinked _ _ _)
    case h_11 =>
      split at h <;> obtain ⟨-, rfl⟩ := Prod.mk.inj h
      · exact absurd hn (goto_unlinked _ _ (by simp) _)
      · exact absurd hn (goto_unlinked _ _ (by simp) _)
      · exact absurd hn (fail_unlinked _ _ _)
    case h_12 =>
      split at h <;> obtain ⟨-, rfl⟩ := Prod.mk.inj h
      · exact absurd hn (goto_unlinked _ _ (by simp) _)
      · exact absurd hn (fail_unlinked _ _ _)
    case h_13 =>
      obtain ⟨-, rfl⟩ := Prod.mk.inj h
      exact absurd hn (fail_unlinked _ _ _)
    case h_14 =>
      obtain ⟨-, rfl⟩ := Prod.mk.inj h
      exact absurd hn ((by assumption : ∀ j, fl.net = .at j .linkStamp → False) j)
  · exact absurd hn (netLocal_unlinked h j)

end Flow

/-- A step of a flow makes a link by its `symlinkat` only. -/
theorem FlowStep.linked (h : FlowStep cfg c sh fl sh' fl') (hi : FlowInv cfg fl) (hl : fl'.Linked fr) :
    fl.Linked fr ∨ ∃ j target i, fl.net = .at j (.linkMake target) ∧ fr = frameOf j fl.log ∧
      Did cfg c sh (.symlinkat target j.dir j.name) i sh' := by
  cases h with
  | hash _ h =>
    obtain ⟨_, _, _, _, _, _, rfl⟩ := hashStep_only h
    exact .inl hl
  | writer h =>
    obtain ⟨_, _, _, _, _, _, rfl⟩ := writerStep_only h
    exact .inl hl
  | net h =>
    obtain ⟨hk, hl⟩ := hl
    have hpc := hi.net.pc
    have hmade : ∀ {j : Job}, (fr ∈ (fl.made cfg j).log.done ∨
        ∃ i, ((fl.made cfg j).net = .at i .linkStamp ∨ (fl.made cfg j).net = .at i .register) ∧ fr = frameOf i (fl.made cfg j).log) →
        fr ∈ fl.log.done ∨ fr = frameOf j fl.log := by
      intro j hx
      unfold made at hx
      split at hx
      · rcases hx with hx | ⟨i, hn | hn, hx⟩
        · exact .inl hx
        · cases hn
        · cases hn; exact .inr hx
      · rcases hx with hx | ⟨i, hn | hn, -⟩
        · simp only [complete, List.mem_append, List.mem_singleton] at hx
          exact hx
        · cases hn
        · cases hn
    cases netStep_turn h with
    | on hd _ hr =>
      rcases hl with hl | ⟨j, hn | hn, hfr⟩
      · rw [hd] at hl
        exact .inl ⟨hk, .inl hl⟩
      · obtain ⟨target, i, hmake, hdid, hlog⟩ := netStep_linked h hn
        rw [hlog] at hfr
        exact .inr ⟨j, target, i, hmake, hfr, hdid⟩
      · exact absurd hn (hr j)
    | found hn he =>
      subst he
      rcases hl with hl | ⟨i, hi | hi, -⟩
      · exact .inl ⟨hk, .inl hl⟩
      · cases hi
      · cases hi
    | @stamped j hn he =>
      subst he
      rcases hmade hl with hl | hfr
      · exact .inl ⟨hk, .inl hl⟩
      · -- a Dir entry
        rw [hn] at hpc
        rw [hfr, frameOf, hpc.2.2] at hk
        cases hk
    | @linked j hn he =>
      subst he
      rcases hmade hl with hl | hfr
      · exact .inl ⟨hk, .inl hl⟩
      · exact .inl ⟨hk, .inr ⟨j, .inl hn, hfr⟩⟩
    | @completed j hn hn' hd =>
      rcases hl with hl | ⟨i, hi | hi, -⟩
      · rw [hd, List.mem_append, List.mem_singleton] at hl
        rcases hl with hl | hfr
        · exact .inl ⟨hk, .inl hl⟩
        · rcases hn with hn | hn
          · exact .inl ⟨hk, .inr ⟨j, .inr hn, hfr⟩⟩
          · rw [hn] at hpc
            rw [hfr, frameOf, hpc.2.1] at hk
            cases hk
      · rw [hn'] at hi; cases hi
      · rw [hn'] at hi; cases hi

theorem Flow.Linked.heard (h : fl.Linked fr) (hi : FlowInv cfg fl) : (fr.entry, fr.comps) ∈ fl.log.heard := by
  obtain ⟨-, h | ⟨j, hn | hn, rfl⟩⟩ := h
  · exact hi.net.log.heard.subset (List.mem_map_of_mem h)
  · exact hi.heard_job hn
  · exact hi.heard_job hn

/-- What is linked is not under way before its stamp. -/
theorem Flow.Linked.apart {st : Stage} (h : fl.Linked fr) (hi : FlowInv cfg fl) (hu : (fl.log.heard.map Prod.snd).Nodup)
    (hn : fl.net = .at j st) (hst : st ≠ .linkStamp ∧ st ≠ .register) : fr.comps ≠ j.comps := by
  have hpc := hi.net.pc
  rw [hn] at hpc
  rw [hpc.1.heard, List.map_append] at hu
  intro he
  obtain ⟨-, h | ⟨i, hn' | hn', -⟩⟩ := h
  · have hmem : fr.comps ∈ (fl.log.done.map fun fr => (fr.entry, fr.comps)).map Prod.snd :=
      List.mem_map_of_mem (f := Prod.snd) (List.mem_map_of_mem (f := fun fr : Frame => (fr.entry, fr.comps)) h)
    exact (List.nodup_append.1 hu).2.2 _ hmem _ (by simp) he
  · rw [hn] at hn'; cases hn'; exact hst.1 rfl
  · rw [hn] at hn'; cases hn'; exact hst.2 rfl

/-! ## Files are created for File entries -/

/-- Every file created was created for a File entry. -/
theorem born_file {ok : State → Act → State → Prop} (h : Reach (step cfg) ok (.init cfg fs0) s) (i : Nat) :
    ∀ t ∈ (s.flow i).log.born, ∃ x ∈ (s.flow i).log.heard, x.2 = t.path ∧ x.1.kind = .file := by
  refine h.invariant (I := fun s => ∀ i, ∀ t ∈ (s.flow i).log.born, ∃ x ∈ (s.flow i).log.heard, x.2 = t.path ∧ x.1.kind = .file)
    (fun i t ht => by cases ht) ?_ i
  intro s a s' hr ih hst _ k t ht
  have hg := step_grows hst k
  have hold : t ∈ (s.flow k).log.born → ∃ x ∈ (s'.flow k).log.heard, x.2 = t.path ∧ x.1.kind = .file := by
    intro ht
    obtain ⟨x, hx, hp⟩ := ih k t ht
    exact ⟨x, hg.heard.subset hx, hp⟩
  rcases step_cases hst with ⟨i, c, sh', fl', -, hf, rfl⟩ | ⟨ha, -⟩
  · rcases put_born hf.effect ht with ht | ⟨rfl, ho⟩
    · exact hold ht
    · have hi := flow_inv hr k
      have hpc := hi.net.pc
      have hnew : ∀ {j : Job} {st : Stage}, (s.flow k).net = .at j st → j.entry.kind = .file → t.path = j.comps →
          ∃ x ∈ ((s.put k (sh', fl')).flow k).log.heard, x.2 = t.path ∧ x.1.kind = .file := fun hn hk hp =>
        ⟨_, hg.heard.subset (hi.heard_job hn), hp.symm, hk⟩
      cases ho with
      | draw hn htd => rw [hn] at hpc; exact hnew hn hpc.2.2 (by rw [htd]; rfl)
      | place hn htd | reuse hn htd => rw [hn] at hpc; exact hnew hn hpc.2.2.1 (by rw [htd]; rfl)
  · rw [ha.log] at ht
    exact hold ht

/-! ## Who takes a name -/

/-- Why a step takes the name at path `p` from what it leads to. -/
inductive Cause (fl : Flow) (p : List Name) (d : Nat) (n : Name) : Prop
  /-- A File or Symlink entry clears its own path, -/
  | clear {j : Job} : fl.net.Clears j → j.entry.kind ≠ .dir → j.comps = p → Cause fl p d n
  /-- a file comes to its path, or leaves it, -/
  | file {t : InFlight} : t ∈ fl.log.born → t.path = p → Cause fl p d n
  /-- or a scratch name is given up. -/
  | scratch {t : InFlight} : t ∈ fl.log.scratches → d = t.parent → n = t.name → Cause fl p d n

theorem Disk.cause {i d : Nat} {n : Name} {ps : List Name} (hD : Disk cfg fs0 s) (hf : ∀ i, FlowInv cfg (s.flow i))
    (hp : Handle s.sh.fs cfg.root d ps) (hu : Unbinds cfg c s.sh (s.flow i) sh' fl' d n) : Cause (s.flow i) (ps ++ [n]) d n := by
  have hfile : ∀ {t}, t ∈ (s.flow i).log.born → d = t.parent → n = t.target → Cause (s.flow i) (ps ++ [n]) d n := by
    rintro t ht rfl rfl
    exact .file ht (by rw [InFlight.path, hD.tree.inj ((hD.placed i).born t ht) hp])
  have hname : ∀ {t}, t ∈ (s.flow i).log.born → d = t.parent → n = t.name → Cause (s.flow i) (ps ++ [n]) d n := by
    intro t ht hd hn
    cases hs : t.scratch with
    | true => exact .scratch (mem_scratches.2 ⟨ht, hs⟩) hd hn
    | false => exact hfile ht hd (by rw [hn, target_of_not_scratch hs])
  cases hu with
  | @clear j hcl hd hn _ =>
    subst hd hn
    have hplaced := (hD.placed i).net
    have hpc := (hf i).net.pc
    obtain ⟨hj, hk⟩ : Handle s.sh.fs cfg.root j.dir j.parents ∧ j.entry.kind ≠ .dir := by
      rcases hcl with ⟨target, hcl⟩ | hcl <;> rw [hcl] at hplaced hpc <;> exact ⟨hplaced, by rw [hpc.2.2.1]; simp⟩
    exact .clear hcl hk (by rw [Job.comps, hD.tree.inj hj hp])
  | moved hw hd hn => exact hname ((hf i).token_born ((hf i).rename_token hw).1) hd hn
  | replaced hw hd =>
    obtain ⟨ht, -, htar⟩ := (hf i).rename_token hw
    exact hfile ((hf i).token_born ht) hd htar.symm
  | undo ht hd hn => exact hname ((hf i).token_born ht) hd hn
  | late hw hd hn => exact hname ((hf i).kept_born ((hf i).late_token hw).1) hd hn

/-! ## Links stay -/

/-- Every link made is at its path, with the target that came. -/
def LinksStand (cfg : Cfg) (s : State) : Prop :=
  ∀ i fr, (s.flow i).Linked fr → ∃ r, resolve s.sh.fs.entry cfg.root fr.comps = some r ∧
    s.sh.fs.leaf r = some (.symlink fr.payload)

theorem LinksStand.aside (h : LinksStand cfg s) (ha : Aside s s') : LinksStand cfg s' := by
  intro i fr hl
  rw [ha.fs]
  refine h i fr ?_
  unfold Flow.Linked at hl ⊢
  rwa [ha.log, ha.net] at hl

section Step

variable {i k : Nat} {d : Nat} {n : Name} {ps : List Name} (hD : Disk cfg fs0 s) (hU : Unique s)
  (hf : ∀ i, FlowInv cfg (s.flow i))
  (hb : ∀ i, ∀ t ∈ (s.flow i).log.born, ∃ x ∈ (s.flow i).log.heard, x.2 = t.path ∧ x.1.kind = .file)

include hD hU hf hb

/-- Nobody takes its name from a link that was made. -/
theorem Disk.link_unbinds (hl : (s.flow k).Linked fr) (hc : fr.comps = ps ++ [n]) (hp : Handle s.sh.fs cfg.root d ps)
    (hu : Unbinds cfg c s.sh (s.flow i) sh' fl' d n) : False := by
  have hh := hl.heard (hf k)
  have hcause := hD.cause hf hp hu
  rw [← hc] at hcause
  cases hcause with
  | @clear j hcl _ hj =>
    obtain ⟨st, hst, hne⟩ : ∃ st, (s.flow i).net = .at j st ∧ st ≠ .linkStamp ∧ st ≠ .register := by
      rcases hcl with ⟨target, hcl⟩ | hcl <;> exact ⟨_, hcl, by simp⟩
    obtain ⟨rfl, -⟩ := hU.paths.eq hh ((hf i).heard_job hst) hj.symm
    exact hl.apart (hf k) (hU.paths.nodup k) hst hne hj.symm
  | file ht hpath =>
    obtain ⟨x, hx, hxp, hxk⟩ := hb i _ ht
    obtain ⟨rfl, rfl⟩ := hU.paths.eq hx hh (hxp.trans hpath)
    rw [hl.1] at hxk
    cases hxk
  | scratch ht _ hn =>
    -- a scratch name is no entry's
    refine hU.names ht hh ?_
    rw [hc, List.getLastD_concat, hn]

theorem LinksStand.flowStep (h : LinksStand cfg s) (hs : FlowStep cfg c s.sh (s.flow i) sh' fl') :
    LinksStand cfg (s.put i (sh', fl')) := by
  have he := hs.effect
  have hkept := (hD.change (hf i) he).kept
  have hold : ∀ {k fr}, (s.flow k).Linked fr → ∃ r, resolve sh'.fs.entry cfg.root fr.comps = some r ∧
      sh'.fs.leaf r = some (.symlink fr.payload) := by
    intro k fr hl
    obtain ⟨r, hr, hleaf⟩ := h k fr hl
    have hne : fr.comps ≠ [] := (sanitize_ok ((hf k).net.log.sane _ (hl.heard (hf k)))).1
    obtain ⟨ps, n, hc⟩ : ∃ ps n, fr.comps = ps ++ [n] := ⟨_, _, (List.dropLast_append_getLast hne).symm⟩
    rw [hc] at hr
    obtain ⟨d, hp, hent⟩ := handle_of_resolve hr
    rcases he.unbinds hent with hent' | hu
    · refine ⟨r, ?_, he.leaf_kept hkept hleaf (by simp)⟩
      rw [hc, (hp.mono hkept).resolve]
      exact hent'
    · exact (hD.link_unbinds hU hf hb hl hc hp hu).elim
  intro k fr hl
  by_cases hk : k = i
  · subst hk
    rw [put_flow] at hl
    rcases hs.linked (hf k) hl with hl | ⟨j, target, r, hn, rfl, hd⟩
    · exact hold hl
    · -- just made
      obtain ⟨hr, hc⟩ := symlinkat_creates hd.exec
      have hp := (hD.placed k).net
      have hpc := (hf k).net.pc
      rw [hn] at hp hpc
      refine ⟨r, ?_, ?_⟩
      · show resolve sh'.fs.entry cfg.root (j.parents ++ [j.name]) = some r
        rw [(Handle.mono hp hkept).resolve, hc.entry, if_pos ⟨rfl, rfl⟩, hr]
      · show sh'.fs.leaf r = some (.symlink (s.flow k).log.part)
        rw [hr, hc.leaf_new, ← hpc.2.2.2.1]
  · rw [put_flow_ne _ _ hk] at hl
    exact hold hl

end Step

/-- In every session whose entries have distinct paths each link made is there. -/
theorem links_stand {ok : State → Act → State → Prop} (ht : fs0.DirTree cfg.root)
    (h : Reach (step cfg) ok (.init cfg fs0) s) : Unique s → LinksStand cfg s := by
  refine h.invariant_while (I := LinksStand cfg) (P := Unique) ?_ (fun s a s' hst hU => hU.mono (step_grows hst)) ?_
  · rintro i fr ⟨-, hl | ⟨j, hn | hn, -⟩⟩
    · cases hl
    · cases hn
    · cases hn
  · intro s a s' hr hU _ ih hst _
    rcases step_cases hst with ⟨i, c, sh', fl', -, hs, rfl⟩ | ⟨ha, -⟩
    · exact ih.flowStep (unique_disk ht hr hU).2 hU (fun i => flow_inv hr i) (born_file hr) hs
    · exact ih.aside ha

end Thunderflash.Recv
