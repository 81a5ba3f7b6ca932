/-
The directories of a session: what its Dir entries find and leave at their paths, from the `mkdirat`
that answers one to the end.
-/
import Thunderflash.Recv.Settled
import Thunderflash.Recv.Atomic

namespace Thunderflash.Recv

open Codec Posix Fs Lts

variable {cfg : Cfg} {c : Choice} {sh sh' : Shared} {fl fl' : Flow} {s s' : State} {fs0 : Fs} {j : Job}
  {x : Entry × List Name}

/-! ## The net thread's turns -/

/-- What one step of the net thread means for the entries that make something in their directory. -/
inductive Turn (cfg : Cfg) (fl fl' : Flow) : Prop
  | on : fl'.log.done = fl.log.done → (∀ j, fl'.net ≠ .at j .dirStamp) → (∀ j, fl'.net ≠ .at j .register) →
      Turn cfg fl fl'
  | found {j : Job} : fl.net = .at j .dirMk → fl' = fl.goto j .dirStamp → Turn cfg fl fl'
  | stamped {j : Job} : fl.net = .at j .dirStamp → fl' = fl.made cfg j → Turn cfg fl fl'
  | linked {j : Job} : fl.net = .at j .linkStamp → fl' = fl.made cfg j → Turn cfg fl fl'
  | completed {j : Job} : fl.net = .at j .register ∨ fl.net = .at j .sendEnd → fl'.net = .decode →
      fl'.log.done = fl.log.done ++ [frameOf j fl.log] → Turn cfg fl fl'

namespace Flow

/-- A step that goes on to the next program point inside an entry. -/
structure Onward (fl fl' : Flow) : Prop where
  done : fl'.log.done = fl.log.done
  stamp : ∀ j, fl'.net ≠ .at j .dirStamp
  register : ∀ j, fl'.net ≠ .at j .register

theorem Onward.turn (h : Onward fl fl') : Turn cfg fl fl' := .on h.done h.stamp h.register

theorem goto_onward {st : Stage} (fl : Flow) (j : Job) (h : st ≠ .dirStamp ∧ st ≠ .register) : Onward fl (fl.goto j st) :=
  ⟨rfl, by simp [goto, h.1], by simp [goto, h.2]⟩

theorem fail_onward (fl : Flow) (e : Err) : Onward fl (fl.fail e) := ⟨rfl, by simp [fail], by simp [fail]⟩

theorem goto_turn {st : Stage} (j : Job) (h : st ≠ .dirStamp ∧ st ≠ .register) : Turn cfg fl (fl.goto j st) :=
  (goto_onward fl j h).turn

theorem fail_turn (e : Err) : Turn cfg fl (fl.fail e) := (fail_onward fl e).turn

theorem dispatch_onward (fl : Flow) (j : Job) : Onward fl (fl.dispatch j) := by
  unfold dispatch
  split <;> exact ⟨rfl, by simp [goto, fail], by simp [goto, fail]⟩

theorem arrive_onward (fl : Flow) (j : Job) : Onward fl (fl.arrive j) := by
  have h := dispatch_onward { fl with cache := some (j.parents, j.dir) } j
  exact ⟨h.done, h.stamp, h.register⟩

theorem linkText_onward (fl : Flow) (j : Job) (target : Bytes) : Onward fl (fl.linkText j target) := by
  unfold linkText
  split <;> exact ⟨rfl, by simp [goto, fail], by simp [goto, fail]⟩

theorem pump_onward (fl : Flow) (j : Job) (r : Nat) : Onward fl (fl.pump cfg j r) := by
  unfold pump
  split
  · exact ⟨rfl, by simp [goto], by simp [goto]⟩
  · split <;> exact ⟨rfl, by simp [goto], by simp [goto]⟩

theorem start_onward (fl : Flow) (e : Entry) : Onward fl (fl.start cfg e) := by
  unfold start
  split
  · exact ⟨rfl, by simp [fail], by simp [fail]⟩
  · dsimp only
    split
    · split
      · have h := fun fl : Flow => dispatch_onward fl
        exact ⟨(h _ _).done, (h _ _).stamp, (h _ _).register⟩
      · exact ⟨rfl, by simp [goto], by simp [goto]⟩
    · exact ⟨rfl, by simp [goto], by simp [goto]⟩

theorem push_done (fl : Flow) (m : Msg) : (fl.push cfg m).log.done = fl.log.done := by rw [push_log]

theorem send_onward {m : Msg} {next gone : Flow → Flow} (hs : fl.send cfg m next gone = some fl')
    (hn : ∀ fl, Onward fl (next fl)) (hg : ∀ fl, Onward fl (gone fl)) : Onward fl fl' := by
  rcases send_some hs with ⟨-, rfl⟩ | ⟨-, -, rfl⟩
  · exact hg fl
  · have h := hn (fl.push cfg m)
    exact ⟨h.done.trans (push_done fl m), h.stamp, h.register⟩

theorem consume_onward {rest part trailer : Bytes} (h : Onward { fl.consume rest with
    log := { (fl.consume rest).log with part, trailer } } fl') : Onward fl fl' := ⟨h.done, h.stamp, h.register⟩

theorem netLocal_turn (h : fl.netLocal cfg c sh = some (sh', fl')) : Turn cfg fl fl' := by
  unfold netLocal at h
  split at h
  case h_1 =>
    split at h <;> cases h
    · exact fail_turn _
    · refine .on rfl ?_ ?_ <;> dsimp only <;> split <;> simp
  case h_2 =>
    split at h
    · cases h; exact fail_turn _
    · split at h <;> cases h; exact fail_turn _
    · cases h; exact fail_turn _
    · cases h; exact .on rfl (by simp) (by simp)
    · cases h; exact (consume_onward (start_onward _ _)).turn
  case h_3 =>
    split at h <;> cases h
    · exact fail_turn _
    · exact (arrive_onward _ _).turn
    · exact goto_turn _ (by simp)
  case h_4 =>
    obtain ⟨r, hr, h⟩ := Option.map_eq_some_iff.1 h
    cases r <;> cases h
    · exact fail_turn _
    · dsimp only
      split
      · exact (consume_onward (goto_onward _ _ (by simp))).turn
      · exact (consume_onward (linkText_onward _ _ _)).turn
  case h_5 =>
    obtain ⟨r, hr, h⟩ := Option.map_eq_some_iff.1 h
    cases r <;> cases h
    · exact fail_turn _
    · dsimp only
      split
      · exact (consume_onward (linkText_onward _ _ _)).turn
      · exact (consume_onward (fail_onward _ _)).turn
  case h_6 => split at h <;> cases h; exact fail_turn _
  case h_7 =>
    obtain ⟨fl1, h1, h⟩ := Option.map_eq_some_iff.1 h
    cases h
    exact (send_onward h1 (fun fl => pump_onward fl _ _) fun fl => goto_onward fl _ (by simp)).turn
  case h_8 =>
    split at h
    · cases h; exact .on rfl (by simp [goto]) (by simp [goto])
    · split at h <;> cases h; exact fail_turn _
  case h_9 =>
    split at h
    · cases h; exact fail_turn _
    · split at h
      · cases h; exact (consume_onward (goto_onward _ _ (by simp))).turn
      · split at h <;> cases h; exact fail_turn _
  case h_10 =>
    obtain ⟨fl1, h1, h⟩ := Option.map_eq_some_iff.1 h
    cases h
    exact (send_onward h1 (fun fl => pump_onward fl _ _) fun fl => fail_onward fl _).turn
  case h_11 =>
    obtain ⟨fl1, h1, h⟩ := Option.map_eq_some_iff.1 h
    cases h
    exact (send_onward h1 (fun fl => goto_onward fl _ (by simp)) fun fl => fail_onward fl _).turn
  case h_12 =>
    split at h
    · cases h; exact .on rfl (by simp [goto]) (by simp [goto])
    · split at h <;> cases h; exact fail_turn _
    · cases h
  case h_13 =>
    obtain ⟨r, hr, h⟩ := Option.map_eq_some_iff.1 h
    cases r <;> cases h
    · exact fail_turn _
    · dsimp only
      split
      · exact (consume_onward (goto_onward _ _ (by simp))).turn
      · exact (consume_onward (fail_onward _ _)).turn
  case h_14 hn =>
    obtain ⟨fl1, h1, h⟩ := Option.map_eq_some_iff.1 h
    cases h
    rcases send_some h1 with ⟨-, rfl⟩ | ⟨-, -, rfl⟩
    · exact fail_turn _
    · refine .completed (.inr hn) rfl ?_
      simp [complete, frameOf]
  case h_15 => cases h

theorem netResume_turn {r : Except Errno Nat} : Turn cfg fl (fl.netResume cfg c r sh).2 := by
  unfold netResume
  split
  case h_1 =>
    split
    · exact .on rfl (by simp) (by simp)
    · exact fail_turn _
  case h_2 =>
    split
    · exact goto_turn _ (by simp)
    · exact goto_turn _ (by simp)
    · exact fail_turn _
  case h_3 =>
    split
    · exact (arrive_onward _ _).turn
    · exact goto_turn _ (by simp)
    · exact fail_turn _
  case h_4 j hn =>
    split
    · exact .found hn rfl
    · exact .found hn rfl
    · exact fail_turn _
  case h_5 j hn => exact .stamped hn rfl
  case h_6 => exact goto_turn _ (by simp)
  case h_7 =>
    split
    · exact goto_turn _ (by simp)
    · exact fail_turn _
  case h_8 j hn => exact .linked hn rfl
  case h_9 j hn =>
    split
    · exact .completed (.inl hn) rfl rfl
    · exact fail_turn _
  case h_10 =>
    split
    · exact .on rfl (by simp [goto]) (by simp [goto])
    · exact goto_turn _ (by simp)
    · exact goto_turn _ (by simp)
    · exact fail_turn _
  case h_11 =>
    split
    · exact .on rfl (by simp [goto]) (by simp [goto])
    · exact goto_turn _ (by simp)
    · exact fail_turn _
  case h_12 =>
    split
    · exact goto_turn _ (by simp)
    · exact fail_turn _
  case h_13 => exact .on rfl (by simp [fail]) (by simp [fail])
  case h_14 => exact .on rfl (by assumption) (by assumption)

theorem netStep_turn (h : fl.netStep cfg c sh = some (sh', fl')) : Turn cfg fl fl' := by
  unfold netStep at h
  split at h
  · obtain rfl := congrArg Prod.snd (Option.some.inj h)
    exact netResume_turn
  · exact netLocal_turn h

/-! ## Directories made and stamped -/

/-- The flow has stamped `x`'s directory, or has tried to. -/
def Stamped (fl : Flow) (x : Entry × List Name) : Prop :=
  x.1.kind = .dir ∧ (x ∈ fl.log.done.map (fun fr => (fr.entry, fr.comps)) ∨
    ∃ j, fl.net = .at j .register ∧ x = (j.entry, j.comps))

/-- The flow has answered `x` with its `mkdirat` and has not stamped it yet. -/
def Stamping (fl : Flow) (x : Entry × List Name) : Prop := ∃ j, fl.net = .at j .dirStamp ∧ x = (j.entry, j.comps)

theorem made_stamp (fl : Flow) (j k : Job) : (fl.made cfg j).net ≠ .at k .dirStamp := by
  unfold made
  split <;> simp [goto, complete]

/-- The threads behind the net thread complete no entry. -/
theorem still_stamped (hn : fl'.net = fl.net) (hd : fl'.log.done = fl.log.done) :
    (fl'.Stamped x ↔ fl.Stamped x) ∧ (fl'.Stamping x ↔ fl.Stamping x) := by
  unfold Stamped Stamping
  rw [hn, hd]
  exact ⟨.rfl, .rfl⟩

end Flow

open Thunderflash.Recv.Flow

/-- What a step of a flow answers and stamps. -/
theorem FlowStep.stamped (h : FlowStep cfg c sh fl sh' fl') (hi : FlowInv cfg fl) :
    (fl'.Stamped x → fl.Stamped x ∨ (fl.Stamping x ∧ fl.netStep cfg c sh = some (sh', fl'))) ∧
      (fl'.Stamping x → fl.Stamping x ∨
        ∃ j, fl.net = .at j .dirMk ∧ x = (j.entry, j.comps) ∧ fl.netStep cfg c sh = some (sh', fl')) := by
  cases h with
  | hash _ h =>
    obtain ⟨_, _, _, _, _, _, rfl⟩ := hashStep_only h
    exact ⟨.inl, .inl⟩
  | writer h =>
    obtain ⟨_, _, _, _, _, _, rfl⟩ := writerStep_only h
    exact ⟨.inl, .inl⟩
  | net h =>
    have hpc := hi.net.pc
    have hmade : ∀ {j : Job}, (fl.made cfg j).Stamped x → fl.Stamped x ∨ (x.1.kind = .dir ∧ x = (j.entry, j.comps)) := by
      rintro j ⟨hk, hx⟩
      unfold made at hx
      split at hx
      · rcases hx with hx | ⟨i, hn, hx⟩
        · exact .inl ⟨hk, .inl hx⟩
        · cases hn; exact .inr ⟨hk, hx⟩
      · rcases hx with hx | ⟨i, hn, -⟩
        · simp only [complete, List.map_append, List.mem_append, List.map_cons, List.map_nil, List.mem_singleton] at hx
          exact hx.imp (fun hx => ⟨hk, .inl hx⟩) fun hx => ⟨hk, hx⟩
        · cases hn
    cases netStep_turn h with
    | on hd hs hr =>
      constructor
      · rintro ⟨hk, hx | ⟨j, hn, -⟩⟩
        · rw [hd] at hx
          exact .inl ⟨hk, .inl hx⟩
        · exact absurd hn (hr j)
      · rintro ⟨j, hn, -⟩
        exact absurd hn (hs j)
    | found hn he =>
      subst he
      constructor
      · rintro ⟨hk, hx | ⟨i, hi, -⟩⟩
        · exact .inl ⟨hk, .inl hx⟩
        · cases hi
      · rintro ⟨i, hi, hx⟩
        cases hi
        exact .inr ⟨_, hn, hx, h⟩
    | @stamped j hn he =>
      subst he
      constructor
      · intro hx
        exact (hmade hx).imp_right fun hx => ⟨⟨j, hn, hx.2⟩, h⟩
      · rintro ⟨i, hst, -⟩
        exact absurd hst (made_stamp fl j i)
    | @linked j hn he =>
      subst he
      rw [hn] at hpc
      constructor
      · intro hx
        rcases hmade hx with hx | ⟨hk, hx⟩
        · exact .inl hx
        · -- a Symlink entry
          rw [hx, hpc.2.2.1] at hk
          cases hk
      · rintro ⟨i, hst, -⟩
        exact absurd hst (made_stamp fl j i)
    | @completed j hn hn' hd =>
      constructor
      · rintro ⟨hk, hx | ⟨i, hi, -⟩⟩
        · rw [hd, List.map_append, List.mem_append] at hx
          rcases hx with hx | hx
          · exact .inl ⟨hk, .inl hx⟩
          · obtain rfl : x = (j.entry, j.comps) := by simpa [frameOf] using hx
            rcases hn with hn | hn
            · exact .inl ⟨hk, .inr ⟨j, hn, rfl⟩⟩
            · rw [hn] at hpc
              rw [hpc.2.1] at hk
              cases hk
        · rw [hn'] at hi; cases hi
      · rintro ⟨i, hi, -⟩
        rw [hn'] at hi; cases hi

theorem Flow.Stamped.heard (h : fl.Stamped x) (hi : FlowInv cfg fl) : x ∈ fl.log.heard := by
  obtain ⟨-, hx | ⟨j, hn, rfl⟩⟩ := h
  · exact hi.net.log.heard.subset hx
  · exact hi.heard_job hn

/-! ## What stands at a Dir entry's path -/

theorem mkdirat_exists {fs : Fs} {um : UInt32} {now : Int64} {d : Nat} {n : Name} {mode : UInt32}
    (h : fs.exec um now (.mkdirat d n mode) = .error .EEXIST) : n.length ≤ NAME_MAX ∧ ∃ r, fs.entry d n = some r := by
  simp only [exec] at h
  cases hc : fs.checkAt d n with
  | error e =>
    simp only [hc, Bind.bind, Except.bind] at h
    cases h
    unfold checkAt at hc
    split at hc
    · cases hc
    · split at hc <;> cases hc
  | ok u =>
    simp only [hc, Bind.bind, Except.bind] at h
    split at h
    · rename_i r hr
      exact ⟨(checkAt_ok hc).1, r, hr⟩
    · cases h

/-- Where the `mkdirat` of a Dir entry finds something, it is a directory. -/
def Clear (s : State) (i : Nat) : Prop :=
  ∀ j r, (s.flow i).net = .at j .dirMk → s.sh.fs.entry j.dir j.name = some r → s.sh.fs.leaf r = some .dir

/-- The `mkdirat` of a Dir entry leaves a directory, when it finds none of another kind. -/
theorem FlowStep.mkdir {j' : Job} (hs : fl.netStep cfg c sh = some (sh', fl')) (hn : fl.net = .at j .dirMk)
    (hn' : fl'.net = .at j' .dirStamp) (hclear : ∀ r, sh.fs.entry j.dir j.name = some r → sh.fs.leaf r = some .dir) :
    j.name.length ≤ NAME_MAX ∧ ∃ d, sh'.fs.entry j.dir j.name = some d ∧ sh'.fs.leaf d = some .dir := by
  have hreq : netRequest cfg c fl.net = some (.mkdirat j.dir j.name (j.entry.mode ||| 0o700)) := by rw [hn]; rfl
  cases hcall : call cfg c sh (.mkdirat j.dir j.name (j.entry.mode ||| 0o700)) with
  | mk sh1 r =>
    unfold netStep at hs
    rw [hreq] at hs
    simp only [hcall, netResume, hn] at hs
    split at hs
    · obtain ⟨rfl, -⟩ := Prod.mk.inj (Option.some.inj hs)
      obtain ⟨-, hd⟩ := call_ok (i := _) (congrArg Prod.snd hcall)
      rw [hcall] at hd
      obtain ⟨-, hc⟩ := mkdirat_creates hd.exec
      exact ⟨hc.short, _, by rw [hc.entry, if_pos ⟨rfl, rfl⟩], hc.leaf_new⟩
    · obtain ⟨rfl, -⟩ := Prod.mk.inj (Option.some.inj hs)
      obtain rfl := call_eq_err hcall
      obtain ⟨hlen, r, hr⟩ := mkdirat_exists (call_error (congrArg Prod.snd hcall) (by simp) (by simp))
      exact ⟨hlen, r, hr, hclear r hr⟩
    · obtain ⟨-, rfl⟩ := Prod.mk.inj (Option.some.inj hs)
      cases hn'

/-- Every Dir entry answered is a directory at its path. -/
def Standing (cfg : Cfg) (s : State) : Prop :=
  ∀ i x, (s.flow i).Stamped x ∨ (s.flow i).Stamping x →
    (x.2.getLastD []).length ≤ NAME_MAX ∧ ∃ d, Handle s.sh.fs cfg.root d x.2

theorem Standing.flowStep {i : Nat} (h : Standing cfg s) (hD : Disk cfg fs0 s) (hf : ∀ i, FlowInv cfg (s.flow i))
    (hs : FlowStep cfg c s.sh (s.flow i) sh' fl') (hclear : fl'.net ≠ (s.flow i).net → Clear s i) :
    Standing cfg (s.put i (sh', fl')) := by
  have hkept := (hD.change (hf i) hs.effect).kept
  have hold : ∀ {k y}, (s.flow k).Stamped y ∨ (s.flow k).Stamping y →
      (y.2.getLastD []).length ≤ NAME_MAX ∧ ∃ d, Handle sh'.fs cfg.root d y.2 := by
    intro k y hy
    obtain ⟨hlen, d, hd⟩ := h k y hy
    exact ⟨hlen, d, hd.mono hkept⟩
  intro k y hy
  by_cases hk : k = i
  · subst hk
    rw [put_flow] at hy
    obtain ⟨hst, hsg⟩ := hs.stamped (x := y) (hf k)
    rcases hy with hy | hy
    · exact hold ((hst hy).imp_right And.left)
    · rcases hsg hy with hy' | ⟨j, hn, rfl, hnet⟩
      · exact hold (.inr hy')
      · -- just answered
        obtain ⟨j', hn', -⟩ := hy
        obtain ⟨hlen, d, hd, hl⟩ := FlowStep.mkdir hnet hn hn' (hclear (by rw [hn, hn']; simp) j · hn)
        have hp : Handle s.sh.fs cfg.root j.dir j.parents := by
          have := (hD.placed k).net
          rwa [hn] at this
        exact ⟨by rw [comps_last]; exact hlen, d, (hp.mono hkept).snoc hd hl⟩
  · rw [put_flow_ne _ _ hk] at hy
    exact hold hy

theorem Standing.aside (h : Standing cfg s) (ha : Aside s s') : Standing cfg s' := by
  intro i x hx
  obtain ⟨hst, hsg⟩ := still_stamped (x := x) (ha.net i) (congrArg Log.done (ha.log i))
  rw [ha.fs]
  exact h i x (hx.imp hst.1 hsg.1)

/-- In every run whose steps meet no obstacle, every Dir entry answered is a directory. -/
theorem standing_inv {ok : State → Act → State → Prop} (ht : fs0.DirTree cfg.root)
    (h : Reach (step cfg) ok (.init cfg fs0) s)
    (hclear : ∀ s a s', Reach (step cfg) ok (.init cfg fs0) s → Unique s → ok s a s' → ∀ i c, a = .net i c → Clear s i) :
    Unique s → Standing cfg s := by
  refine h.invariant_while (I := Standing cfg) (P := Unique) ?_ (fun s a s' hst hU => hU.mono (step_grows hst)) ?_
  · rintro i x (⟨-, hx | ⟨j, hn, -⟩⟩ | ⟨j, hn, -⟩)
    · cases hx
    · cases hn
    · cases hn
  · intro s a s' hr hU _ ih hst ho
    rcases step_cases hst with ⟨i, c, sh', fl', -, hf, rfl⟩ | ⟨ha, -⟩
    · refine ih.flowStep (unique_disk ht hr hU).2 (fun i => flow_inv hr i) hf fun hne => ?_
      rcases step_net hst i with hsame | ⟨c', rfl⟩
      · rw [put_flow] at hsame
        exact absurd hsame hne
      · exact hclear _ _ _ hr hU ho i c' rfl
    · exact ih.aside ha

/-- A session that has succeeded has completed every entry it has heard. -/
theorem heard_done {ok : State → Act → State → Prop} (h : Reach (step cfg) ok (.init cfg fs0) s) {st : Stats}
    (hr : s.main = .returned (.ok st)) (i : Nat) :
    (s.flow i).log.heard = (s.flow i).log.done.map (fun fr => (fr.entry, fr.comps)) := by
  have hph := phase_ok h
  rw [hr] at hph
  by_cases hlt : i < cfg.flows
  · exact ((flow_inv h i).success (hph i hlt)).heard
  · rw [log_idle h (by omega)]; rfl

/-! ## Directories at the end of a session -/

/-- No step finds anything but a directory where the `mkdirat` of a Dir entry is to make one. -/
def Unobstructed (s : State) (a : Act) (_ : State) : Prop := ∀ i c, a = .net i c → Clear s i

/-- In every session that succeeds, there is a directory at the path of each Dir entry, if none of their
`mkdirat`s found something else. -/
theorem dirs_real (ht : fs0.DirTree cfg.root) (h : Reach (step cfg) Unobstructed (.init cfg fs0) s) (hU : Unique s)
    {st : Stats} (hr : s.main = .returned (.ok st)) {i : Nat} (hx : x ∈ (s.flow i).log.heard) (hk : x.1.kind = .dir) :
    ∃ d, Handle s.sh.fs cfg.root d x.2 := by
  rw [heard_done h hr] at hx
  exact (standing_inv ht h (fun _ _ _ _ _ ho => ho) hU i x (.inl ⟨hk, .inl hx⟩)).2

/-- The same, computed. -/
def unobstructed (s : State) (a : Act) (_ : State) : Bool :=
  match a with
  | .net i _ =>
    match (s.flow i).net with
    | .at j .dirMk =>
      match s.sh.fs.entry j.dir j.name with
      | some r => decide (s.sh.fs.leaf r = some .dir)
      | none => true
    | _ => true
  | _ => true

theorem unobstructed_iff {a : Act} (h : unobstructed s a s' = true) : Unobstructed s a s' := by
  rintro i c rfl j r hn hr
  simp only [unobstructed, hn, hr] at h
  exact of_decide_eq_true h

def dirFrame (path : Str) (mtime : Int64) : Frame := ⟨⟨.dir, path, 0, 0o755, mtime⟩, [path.bytes], [], []⟩

/-- The Dir entry `a` arrives, alone, and the session ends. -/
def lone : List Act := List.flatten [opening single, [.deliver 0 (encodeAll [dirFrame pathA 5] ++ [0])], netRuns 0 6,
  writerRuns 0 1, List.replicate 3 (.main plain)]

/-- A session that has succeeded, seen at its last state: `x` was heard, the paths are distinct and no name
drawn is an entry's. -/
def Concluded (cfg : Cfg) (x : Entry × List Name) (s : State) : Prop :=
  s.main = .returned (.ok (totalStats cfg s)) ∧ x ∈ (s.flow 0).log.heard ∧
    (∀ i < cfg.flows, ∀ k < cfg.flows, ∀ t ∈ (s.flow i).log.scratches, ∀ x ∈ (s.flow k).log.heard,
      t.name ≠ x.2.getLastD []) ∧
    ((List.range cfg.flows).flatMap fun i => (s.flow i).log.heard.map Prod.snd).Nodup

instance (cfg : Cfg) (x : Entry × List Name) (s : State) : Decidable (Concluded cfg x s) := by
  unfold Concluded; infer_instance

theorem Concluded.unique {ok : State → Act → State → Prop} (h : Concluded cfg x s)
    (hr : Reach (step cfg) ok (.init cfg fs0) s) : Unique s := .of_reach hr h.2.2.1 h.2.2.2

theorem dirs_real_lone : ∃ s d, runIf (step single) unobstructed (.init single rootOnly) lone = some s ∧
    Handle s.sh.fs single.root d [[97]] := by
  have hrun : ((runIf (step single) unobstructed (.init single rootOnly) lone).any fun s =>
      decide (Concluded single ((dirFrame pathA 5).entry, [[97]]) s)) = true := by decide +kernel
  obtain ⟨s, hs, hv⟩ := (Option.any_eq_true _ _).1 hrun
  have hc := of_decide_eq_true hv
  have hreach : Reach (step single) Unobstructed (.init single rootOnly) s := .of_runIf (fun _ _ _ => unobstructed_iff) hs
  obtain ⟨d, hdir⟩ := dirs_real (.of_flat rfl (by decide +kernel)) hreach (hc.unique hreach) hc.1 hc.2.1 rfl
  exact ⟨s, d, hs, hdir⟩

/-- There is a file at `a`. -/
def occupied : Fs := ⟨[⟨.dir [([97], 1)], 0o755, 0⟩, ⟨.file [1, 2], 0o644, 0⟩]⟩

/-- `mkdirat` takes the file for the directory. -/
theorem dirs_not_real : ¬ ∀ (cfg : Cfg) (fs0 : Fs) (s : State) (st : Stats), fs0.DirTree cfg.root → Reachable cfg fs0 s →
    Unique s → s.main = .returned (.ok st) → ∀ i, ∀ x ∈ (s.flow i).log.heard, x.1.kind = .dir →
    ∃ d, Handle s.sh.fs cfg.root d x.2 := by
  intro h
  have hrun : ((run (step single) (.init single occupied) lone).any fun s =>
      decide (Concluded single ((dirFrame pathA 5).entry, [[97]]) s ∧
        Posix.resolve s.sh.fs.entry single.root [[97]] = some 1 ∧ s.sh.fs.leaf 1 = some (.file [1, 2]))) = true := by
    decide +kernel
  obtain ⟨s, hs, hv⟩ := (Option.any_eq_true _ _).1 hrun
  obtain ⟨hc, he, hl⟩ := of_decide_eq_true hv
  have hreach : Reachable single occupied s := .of_run hs
  obtain ⟨d, hpath, hdir⟩ :=
    h single occupied s _ (.of_flat rfl (by decide +kernel)) hreach (hc.unique hreach) hc.1 0 _ hc.2.1 rfl
  obtain rfl : 1 = d := Option.some.inj (he.symm.trans hpath)
  rw [hl] at hdir
  cases hdir

end Thunderflash.Recv
