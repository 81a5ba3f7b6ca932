/-
The registry of a durable session: every directory an entry was made in, or a file renamed in, gets into
it before the entry is done with.
-/
import Thunderflash.Recv.Dirs

namespace Thunderflash.Recv

open Codec Posix Fs Lts Thunderflash.Recv.Flow

variable {cfg : Cfg} {c : Choice} {sh sh' : Shared} {fl fl' : Flow} {s s' : State} {fs0 : Fs} {t u : InFlight} {j : Job}
  {d k : Nat} {ps : List Name}

/-! ## The registry -/

theorem subset_register (d : Nat) (sh : Shared) : sh.regs ⊆ (sh.register d).regs ∧ d ∈ (sh.register d).regs := by
  unfold Shared.register
  split
  · exact ⟨fun _ hx => hx, by assumption⟩
  · exact ⟨List.subset_append_left .., List.mem_append_right _ (List.mem_singleton_self d)⟩

theorem call_regs (cfg : Cfg) (c : Choice) (sh : Shared) (sys : Sys) : (call cfg c sh sys).1.regs = sh.regs := by
  rcases call_cases cfg c sh sys with ⟨i, -, -, hd⟩ | ⟨e, -, he⟩
  · exact hd.regs
  · rw [he]

theorem regs_of_call {sys : Sys} {r : Except Errno Nat} (h : call cfg c sh sys = (sh', r)) : sh'.regs = sh.regs := by
  have := call_regs cfg c sh sys
  rwa [h] at this

theorem dropMsg_regs {m : Msg} (hp : fl.dropMsg cfg c m sh = (sh', fl')) : sh'.regs = sh.regs := by
  unfold dropMsg at hp
  split at hp
  · obtain ⟨rfl, -⟩ := Prod.mk.inj hp
    exact call_regs ..
  · cases hp; rfl

theorem undo_regs (hp : fl.undo cfg c t sh = (sh', fl')) : sh'.regs = sh.regs := dropMsg_regs (m := .begin t) hp

theorem hashStep_regs (h : fl.hashStep cfg c sh = some (sh', fl')) : sh'.regs = sh.regs := by
  unfold hashStep at h
  split at h
  case h_1 =>
    split at h
    · cases h; rfl
    · cases h; rfl
    · cases h; rfl
    · split at h <;> cases h; rfl
  case h_2 =>
    split at h
    · cases h; rfl
    · split at h <;> cases h; rfl
  case h_3 => exact dropMsg_regs (Option.some.inj h)
  case h_4 => exact dropMsg_regs (Option.some.inj h)
  case h_5 => cases h

theorem netResume_regs (cfg : Cfg) (c : Choice) (r : Except Errno Nat) (sh : Shared) (fl : Flow) :
    sh.regs ⊆ (fl.netResume cfg c r sh).1.regs := by
  unfold netResume
  repeat' split
  all_goals first | exact fun _ hx => hx | exact (subset_register _ _).1

/-- The directory of a renamed file has been registered, is about to be, or its flow has failed. -/
def Entered (sh : Shared) (fl : Flow) (t : InFlight) : Prop :=
  t.parent ∈ sh.regs ∨ fl.writer = .register t ∨ (∃ u e, fl.writer = .lateDrop u e) ∨ ∃ l e, fl.writer = .closing l (.error e)

theorem writerStep_regs (h : fl.writerStep cfg c sh = some (sh', fl')) : sh.regs ⊆ sh'.regs := by
  have hof : sh'.regs = sh.regs → sh.regs ⊆ sh'.regs := fun he => by rw [he]; exact fun _ hx => hx
  unfold writerStep at h
  split at h
  case h_1 current hw =>
    split at h
    · obtain rfl := congrArg Prod.fst (Option.some.inj h)
      refine hof ?_
      unfold handle
      split <;> rfl
    all_goals
      split at h <;> cases h
      exact hof rfl
  case h_2 => exact hof (undo_regs (Option.some.inj h))
  case h_3 o bytes hw =>
    split at h
    · cases h; exact hof rfl
    · split at h
      · split at h <;> cases h <;> exact hof (regs_of_call (by assumption))
      · cases h
  case h_4 => cases h; exact hof (call_regs ..)
  case h_5 =>
    obtain rfl := congrArg Prod.fst (Option.some.inj h)
    exact hof (call_regs ..)
  case h_6 => split at h <;> cases h <;> exact hof (regs_of_call (by assumption))
  case h_7 => split at h <;> cases h <;> exact hof (regs_of_call (by assumption))
  case h_8 =>
    split at h <;> cases h
    · rename_i hc
      rw [← regs_of_call hc]
      exact (subset_register _ _).1
    · exact hof (regs_of_call (by assumption))
  case h_9 => exact hof (undo_regs (Option.some.inj h))
  case h_10 => cases h; exact hof (call_regs ..)
  case h_11 => exact hof (undo_regs (Option.some.inj h))
  case h_12 => exact hof (dropMsg_regs (Option.some.inj h))
  case h_13 => cases h

theorem netStep_regs (h : fl.netStep cfg c sh = some (sh', fl')) : sh.regs ⊆ sh'.regs := by
  unfold netStep at h
  split at h
  · obtain rfl := congrArg Prod.fst (Option.some.inj h)
    rw [← call_regs cfg c sh _]
    exact netResume_regs ..
  · rw [(netLocal_move h).1.2.2]
    exact fun _ hx => hx

theorem FlowStep.regs (h : FlowStep cfg c sh fl sh' fl') : sh.regs ⊆ sh'.regs := by
  cases h with
  | net h => exact netStep_regs h
  | hash _ h => rw [hashStep_regs h]; exact fun _ hx => hx
  | writer h => exact writerStep_regs h

/-- A writer that has renamed a file goes on to register its directory. -/
theorem writerStep_entered (hd : cfg.durable = true) (h : fl.writerStep cfg c sh = some (sh', fl'))
    (hk : t ∈ fl'.log.kept) (hs : t.scratch = true) (hold : t ∈ fl.log.kept → Entered sh fl t) : Entered sh' fl' t := by
  have hmono : t.parent ∈ sh.regs → Entered sh' fl' t := fun hr => .inl (writerStep_regs h hr)
  -- what the writer was at, when that settles nothing
  have hsame : fl'.log.kept = fl.log.kept → (∀ u, fl.writer ≠ .register u) → (∀ u e, fl.writer ≠ .lateDrop u e) →
      (∀ l e, fl.writer ≠ .closing l (.error e)) → Entered sh' fl' t := by
    intro hkept h1 h2 h3
    rw [hkept] at hk
    rcases hold hk with hr | hw | ⟨u, e, hw⟩ | ⟨l, e, hw⟩
    · exact hmono hr
    · exact absurd hw (h1 t)
    · exact absurd hw (h2 u e)
    · exact absurd hw (h3 l e)
  have hundo : ∀ {u : InFlight} {fl0 : Flow}, fl0.undo cfg c u sh = (sh', fl') → fl'.log.kept = fl0.log.kept := by
    intro u fl0 hp
    obtain ⟨undone, he⟩ := undo_eq hp
    rw [he]
  unfold writerStep at h
  split at h
  case h_1 current hw =>
    refine hsame ?_ (by simp [hw]) (by simp [hw]) (by simp [hw])
    split at h
    · obtain rfl := congrArg Prod.snd (Option.some.inj h)
      unfold handle
      split <;> rfl
    all_goals
      split at h <;> cases h
      rfl
  case h_2 hw =>
    have hkept := hundo (Option.some.inj h)
    exact hsame hkept (by simp [hw]) (by simp [hw]) (by simp [hw])
  case h_3 o bytes hw =>
    refine hsame ?_ (by simp [hw]) (by simp [hw]) (by simp [hw])
    split at h
    · cases h; rfl
    · split at h
      · split at h <;> cases h <;> rfl
      · cases h
  case h_4 hw => cases h; exact hsame rfl (by simp [hw]) (by simp [hw]) (by simp [hw])
  case h_5 hw =>
    obtain rfl := congrArg Prod.snd (Option.some.inj h)
    rw [if_pos hd] at hk hsame ⊢
    exact hsame rfl (by simp [hw]) (by simp [hw]) (by simp [hw])
  case h_6 u hw =>
    split at h <;> cases h
    · rcases settle_cases u fl with ⟨final, -, he⟩ | ⟨hn, he⟩ <;> rw [he] at hk hsame ⊢
      · exact hsame rfl (by simp [hw]) (by simp [hw]) (by simp [hw])
      · -- a file kept in place is no scratch file
        rcases List.mem_append.1 hk with hk' | hk'
        · rcases hold hk' with hr | hw' | ⟨v, e, hw'⟩ | ⟨l, e, hw'⟩
          · rw [← he] at *; exact hmono hr
          all_goals rw [hw] at hw'; cases hw'
        · rw [List.mem_singleton] at hk'
          rw [hk', InFlight.scratch, hn] at hs
          cases hs
    · exact hsame rfl (by simp [hw]) (by simp [hw]) (by simp [hw])
  case h_7 u final hw =>
    split at h <;> cases h
    · rcases List.mem_append.1 hk with hk' | hk'
      · rcases hold hk' with hr | hw' | ⟨v, e, hw'⟩ | ⟨l, e, hw'⟩
        · exact hmono hr
        all_goals rw [hw] at hw'; cases hw'
      · rw [List.mem_singleton] at hk'
        right; left
        dsimp only
        rw [if_pos hd, hk']
    · exact hsame rfl (by simp [hw]) (by simp [hw]) (by simp [hw])
  case h_8 u hw =>
    split at h <;> cases h
    · rename_i sh1 d hc
      rcases hold hk with hr | hw' | ⟨v, e, hw'⟩ | ⟨l, e, hw'⟩
      · exact hmono hr
      · rw [hw] at hw'
        cases hw'
        rw [(exec_fstat (call_did hc).exec).2]
        exact .inl (subset_register _ _).2
      all_goals rw [hw] at hw'; cases hw'
    · exact .inr (.inr (.inl ⟨_, _, rfl⟩))
  case h_9 u e hw =>
    obtain ⟨undone, he⟩ := undo_eq (Option.some.inj h)
    exact .inr (.inr (.inr ⟨_, _, by rw [he]; rfl⟩))
  case h_10 u e hw => cases h; exact .inr (.inr (.inr ⟨_, _, rfl⟩))
  case h_11 u hw =>
    have hkept := hundo (Option.some.inj h)
    exact hsame hkept (by simp [hw]) (by simp [hw]) (by simp [hw])
  case h_12 m l r hw =>
    obtain ⟨undone, he⟩ := dropMsg_eq (Option.some.inj h)
    have hkept : fl'.log.kept = fl.log.kept := by rw [he]
    rw [hkept] at hk
    rcases hold hk with hr | hw' | ⟨v, e, hw'⟩ | ⟨l', e, hw'⟩
    · exact hmono hr
    · rw [hw] at hw'; cases hw'
    · rw [hw] at hw'; cases hw'
    · rw [hw] at hw'
      cases hw'
      exact .inr (.inr (.inr ⟨_, _, by rw [he]⟩))
  case h_13 => cases h

/-- The net thread has opened the destination, and has not failed. -/
def NetPc.past : NetPc → Prop
  | .openRoot | .registerRoot | .finished (.error _) => False
  | _ => True

/-- The destination itself is registered first. -/
theorem netStep_root (hd : cfg.durable = true) (h : fl.netStep cfg c sh = some (sh', fl')) (hp : fl'.net.past) :
    fl.net.past ∨ cfg.root ∈ sh'.regs := by
  cases hn : fl.net with
  | openRoot =>
    unfold netStep at h
    rw [hn] at h
    simp only [netRequest, netLocal, hn] at h
    split at h
    · cases h
      exact hp.elim
    · cases h
      dsimp only at hp
      rw [if_pos hd] at hp
      exact hp.elim
  | registerRoot =>
    unfold netStep at h
    rw [hn] at h
    simp only [netRequest, netResume, hn] at h
    split at h
    · rename_i d hr
      cases h
      rw [(exec_fstat (call_ok hr).2.exec).2]
      exact .inr (subset_register _ _).2
    · cases h
      exact hp.elim
  | decode => exact .inl trivial
  | «at» j st => exact .inl trivial
  | finished r => exact absurd (by simp [Flow.netFinished, hn]) (netStep_cases h).1

/-- An entry that made something in its directory registers it before it is done with. -/
theorem netStep_register (h : fl.netStep cfg c sh = some (sh', fl')) (hn : fl.net = .at j .register)
    (hn' : fl'.net = .decode) : j.dir ∈ sh'.regs := by
  unfold netStep at h
  rw [hn] at h
  simp only [netRequest, netResume, hn] at h
  split at h
  · rename_i d hr
    cases h
    rw [(exec_fstat (call_ok hr).2.exec).2]
    exact (subset_register _ _).2
  · cases h
    cases hn'

/-- What one step of a flow registers for the entries it completes. -/
theorem FlowStep.registers {fr : Frame} (hd : cfg.durable = true) (h : FlowStep cfg c sh fl sh' fl') (hi : FlowInv cfg fl)
    (hfr : fr ∈ fl'.log.done) (hk : fr.entry.kind ≠ .file) :
    fr ∈ fl.log.done ∨ ∃ j, fl.net = .at j .register ∧ fr.comps = j.comps ∧ j.dir ∈ sh'.regs := by
  cases h with
  | net h =>
    have hmade : ∀ j, (fl.made cfg j).log.done = fl.log.done := fun j => by
      unfold made
      rw [if_pos hd]
      rfl
    cases netStep_turn h with
    | on he => rw [he] at hfr; exact .inl hfr
    | found _ he => subst he; exact .inl hfr
    | stamped _ he => subst he; rw [hmade] at hfr; exact .inl hfr
    | linked _ he => subst he; rw [hmade] at hfr; exact .inl hfr
    | @completed j hn hn' he =>
      rw [he] at hfr
      refine (List.mem_append.1 hfr).imp_right fun hfr => ?_
      obtain rfl := List.mem_singleton.1 hfr
      rcases hn with hn | hn
      · exact ⟨j, hn, rfl, netStep_register h hn hn'⟩
      · have hpc := hi.net.pc
        rw [hn] at hpc
        exact absurd hpc.2.1 hk
  | hash _ h =>
    obtain ⟨_, _, _, _, _, _, rfl⟩ := hashStep_only h
    exact .inl hfr
  | writer h =>
    obtain ⟨_, _, _, _, _, _, rfl⟩ := writerStep_only h
    exact .inl hfr

/-! ## Runs -/

/-- Directories stay where they are: the tree is one, and every directory held open is at its path. -/
structure Grounded (cfg : Cfg) (s : State) : Prop where
  tree : s.sh.fs.DirTree cfg.root
  placed : ∀ i, Placed (Handle s.sh.fs cfg.root) (s.flow i)

/-- No directory stands under the scratch name of a file that is about to be renamed. -/
def RenamesFiles (s : State) : Prop :=
  ∀ {i t final r}, (s.flow i).writer = .rename t final → s.sh.fs.entry t.parent t.name = some r → s.sh.fs.leaf r ≠ some .dir

theorem FlowStep.change (hs : FlowStep cfg c s.sh (s.flow k) sh' fl') (hr : RenamesFiles s) : Change 0 s.sh.fs sh'.fs :=
  hs.effect.change fun _ _ _ hw he => ⟨hr hw he, Nat.zero_le _⟩

theorem Grounded.flowStep (h : Grounded cfg s) (hf : FlowInv cfg (s.flow k)) (hr : RenamesFiles s)
    (hs : FlowStep cfg c s.sh (s.flow k) sh' fl') : Grounded cfg (s.put k (sh', fl')) := by
  have hch := hs.change hr
  have hm : ∀ d ps, Handle s.sh.fs cfg.root d ps → Handle sh'.fs cfg.root d ps := fun _ _ hp => hp.mono hch.kept
  refine ⟨hch.tree h.tree, fun i => ?_⟩
  by_cases hi : i = k
  · subst hi
    rw [put_flow]
    refine hs.placed hf ((h.placed i).mono hm) (.nil (hch.tree h.tree)) fun d n i ps _ hn hl hp => ?_
    exact hp.snoc (hch.kept.entry hl hn) (hch.kept.leaf hl)
  · rw [put_flow_ne _ _ hi]; exact (h.placed i).mono hm

theorem Grounded.aside (h : Grounded cfg s) (ha : Aside s s') : Grounded cfg s' := by
  refine ⟨by rw [ha.fs]; exact h.tree, fun i => ?_⟩
  obtain ⟨w, e, he⟩ := ha.flow i
  rw [he, ha.fs]
  exact ⟨(h.placed i).net, (h.placed i).cache, (h.placed i).born⟩

/-- The directories of the entries done with are registered. -/
structure Registered (cfg : Cfg) (s : State) : Prop where
  root : ∀ {i}, (s.flow i).net.past → cfg.root ∈ s.sh.regs
  made : ∀ {i fr}, fr ∈ (s.flow i).log.done → fr.entry.kind ≠ .file →
    ∃ d ∈ s.sh.regs, Handle s.sh.fs cfg.root d fr.comps.dropLast
  kept : ∀ {i t}, t ∈ (s.flow i).log.kept → t.scratch = true → Entered s.sh (s.flow i) t

theorem Registered.flowStep (hd : cfg.durable = true) (h : Registered cfg s) (hG : Grounded cfg s)
    (hf : FlowInv cfg (s.flow k)) (hr : RenamesFiles s) (hs : FlowStep cfg c s.sh (s.flow k) sh' fl') :
    Registered cfg (s.put k (sh', fl')) := by
  have hregs := hs.regs
  have hkept := (hs.change hr).kept
  refine ⟨?_, ?_, ?_⟩
  · intro i hp
    by_cases hi : i = k
    · subst hi
      rw [put_flow] at hp
      cases hs with
      | net hs =>
        rcases netStep_root hd hs hp with hp | hr
        · exact hregs (h.root hp)
        · exact hr
      | hash _ hs =>
        obtain ⟨_, _, _, _, _, _, rfl⟩ := hashStep_only hs
        exact hregs (h.root hp)
      | writer hs =>
        obtain ⟨_, _, _, _, _, _, rfl⟩ := writerStep_only hs
        exact hregs (h.root hp)
    · rw [put_flow_ne _ _ hi] at hp
      exact hregs (h.root hp)
  · intro i fr hfr hk
    have hold : ∀ {i}, fr ∈ (s.flow i).log.done → ∃ d ∈ sh'.regs, Handle sh'.fs cfg.root d fr.comps.dropLast := by
      intro i hfr
      obtain ⟨d, hmem, hp⟩ := h.made hfr hk
      exact ⟨d, hregs hmem, hp.mono hkept⟩
    by_cases hi : i = k
    · subst hi
      rw [put_flow] at hfr
      rcases hs.registers hd hf hfr hk with hfr | ⟨j, hn, hcomps, hmem⟩
      · exact hold hfr
      · have hp := (hG.placed i).net
        rw [hn] at hp
        refine ⟨j.dir, hmem, ?_⟩
        rw [hcomps, Job.comps, List.dropLast_concat]
        exact Handle.mono hp hkept
    · rw [put_flow_ne _ _ hi] at hfr
      exact hold hfr
  · intro i t ht hsc
    by_cases hi : i = k
    · subst hi
      rw [put_flow] at ht ⊢
      have hrest : fl'.writer = (s.flow i).writer → fl'.log.kept = (s.flow i).log.kept → Entered sh' fl' t := by
        intro hw hk
        rw [hk] at ht
        have := h.kept ht hsc
        unfold Entered at this ⊢
        rw [hw]
        exact this.imp_left fun hm => hregs hm
      cases hs with
      | net hs =>
        obtain ⟨hw, -, hk⟩ := netStep_writer hs
        exact hrest hw hk
      | hash _ hs =>
        obtain ⟨_, _, _, _, _, _, rfl⟩ := hashStep_only hs
        exact hrest rfl rfl
      | writer hs => exact writerStep_entered hd hs ht hsc fun hk => h.kept hk hsc
    · rw [put_flow_ne _ _ hi] at ht ⊢
      exact (h.kept ht hsc).imp_left fun hm => hregs hm

theorem Registered.aside (h : Registered cfg s) (ha : Aside s s') : Registered cfg s' := by
  refine ⟨fun hp => ?_, fun hfr hk => ?_, fun ht hs => ?_⟩
  · rw [ha.net] at hp
    rw [ha.regs]
    exact h.root hp
  · rw [ha.log] at hfr
    rw [ha.regs, ha.fs]
    exact h.made hfr hk
  · rw [ha.log] at ht
    unfold Entered
    rw [ha.regs, ha.writer]
    exact h.kept ht hs

theorem registry_inv (hd : cfg.durable = true) (ht : fs0.DirTree cfg.root) {ok : State → Act → State → Prop}
    (hok : ∀ s a s', ok s a s' → RenamesFiles s) (h : Reach (step cfg) ok (.init cfg fs0) s) :
    Grounded cfg s ∧ Registered cfg s := by
  refine h.invariant (I := fun s => Grounded cfg s ∧ Registered cfg s) ⟨⟨ht, fun _ => .init⟩, ?_⟩ ?_
  · exact ⟨fun hp => hp.elim, fun hfr => (List.not_mem_nil hfr).elim, fun hk => (List.not_mem_nil hk).elim⟩
  · intro s a s' hr ⟨hG, hR⟩ hst ho
    rcases step_cases hst with ⟨i, c, sh', fl', -, hf, rfl⟩ | ⟨ha, -⟩
    · exact ⟨hG.flowStep (flow_inv hr i) (hok _ _ _ ho) hf, hR.flowStep hd hG (flow_inv hr i) (hok _ _ _ ho) hf⟩
    · exact ⟨hG.aside ha, hR.aside ha⟩

end Thunderflash.Recv
