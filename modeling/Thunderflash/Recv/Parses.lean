/-
`read_entries` as a parser: it panics on no input and comes to an end on all, and where no call
fails it accepts exactly the streams of whole frames behind which the terminator stands.
-/
import Thunderflash.Recv.Reads

namespace Thunderflash.Recv

open Codec Posix Lts

variable {cfg : Cfg} {c : Choice} {sh sh' : Shared} {fl fl' : Flow} {fs0 : Fs} {s s' : State} {j : Job}
  {frames : List Frame} {missing later stream : Bytes} {i : Nat}

/-! ## Targets -/

/-- A symlink's target can be made one. -/
def Frame.Target (fr : Frame) : Prop := fr.entry.kind = .symlink → utf8 fr.payload = true ∧ 0 ∉ fr.payload

/-- The net thread has not come to the branch that is marked as unreachable, and a link it has made
has a target that can be one. -/
def NetPc.sane (log : Log) : NetPc → Prop
  | .finished (.error e) => e ≠ .unreachable
  | .at j .linkStamp | .at j .register => (frameOf j log).Target
  | _ => True

structure Sane (fl : Flow) : Prop where
  done : ∀ fr ∈ fl.log.done, fr.Target
  net : fl.net.sane fl.log

theorem Sane.of (h : Sane fl) (hd : fl'.log.done = fl.log.done) (hn : fl'.net.sane fl'.log) : Sane fl' :=
  ⟨by rw [hd]; exact h.done, hn⟩

theorem Sane.complete (h : ∀ fr ∈ fl.log.done, fr.Target) (hj : (frameOf j fl.log).Target) : Sane (fl.complete j) := by
  refine ⟨fun fr hfr => ?_, trivial⟩
  rcases List.mem_append.1 hfr with hfr | hfr
  · exact h fr hfr
  · rw [List.mem_singleton.1 hfr]
    exact hj

theorem Sane.made (h : Sane fl) (hj : (frameOf j fl.log).Target) : Sane (fl.made cfg j) := by
  unfold Flow.made
  split
  · exact ⟨h.done, hj⟩
  · exact .complete h.done hj

theorem dispatch_sane (hk : j.entry.kind ≠ .end_) (fl : Flow) (log : Log) : (fl.dispatch j).net.sane log := by
  unfold Flow.dispatch
  split
  · trivial
  · trivial
  · trivial
  · rename_i h
    exact absurd h hk

theorem pump_sane (n : Nat) (fl : Flow) (log : Log) : (fl.pump cfg j n).net.sane log := by
  unfold Flow.pump
  split
  · trivial
  · split <;> trivial

theorem linkText_sane (target : Bytes) (fl : Flow) (log : Log) : (fl.linkText j target).net.sane log := by
  unfold Flow.linkText
  split
  · trivial
  · exact nofun

theorem arrive_sane (hk : j.entry.kind ≠ .end_) (fl : Flow) (log : Log) : (fl.arrive j).net.sane log := by
  unfold Flow.arrive
  exact dispatch_sane hk _ _

theorem start_sane (h : ∀ fr ∈ fl.log.done, fr.Target) {e : Entry} (hk : e.kind ≠ .end_) : Sane (fl.start cfg e) := by
  unfold Flow.start
  split
  · exact ⟨h, nofun⟩
  · rename_i comps hc
    dsimp only
    split
    · split
      · constructor
        · rw [Flow.dispatch_log]
          exact h
        · apply dispatch_sane
          exact hk
      · exact ⟨h, trivial⟩
    · exact ⟨h, trivial⟩

theorem readExact_error {n : Nat} {e : Err} (h : fl.readExact c n = some (.error e)) : e ≠ .unreachable := by
  unfold Flow.readExact at h
  split at h
  · cases h; exact nofun
  · split at h
    · cases h
    · split at h <;> cases h
      exact nofun

theorem send_sane {m : Msg} {next gone : Flow → Flow} (h : Sane fl) (hs : fl.send cfg m next gone = some fl')
    (hn : ∀ fl : Flow, Sane fl → Sane (next fl)) (hg : Sane (gone fl)) : Sane fl' := by
  rcases Flow.send_some hs with ⟨-, rfl⟩ | ⟨-, -, rfl⟩
  · exact hg
  · refine hn _ (.of h (by rw [Flow.push_log]) ?_)
    have hnet := h.net
    rw [Flow.push_net, Flow.push_log]
    unfold NetPc.sane at hnet ⊢
    split at hnet <;> exact hnet

theorem netLocal_sane (hn : NetInv cfg fl) (h : Sane fl) (hs : fl.netLocal cfg c sh = some (sh', fl')) : Sane fl' := by
  have hpc := hn.pc
  have hkind : ∀ {j : Job} {st : Stage}, fl.net = .at j st → j.entry.kind ≠ .end_ := by
    intro j st hj
    rw [hj] at hpc
    exact hpc.1.framed.kind
  have hfile : ∀ {j : Job} {log : Log}, j.entry.kind = .file → (frameOf j log).Target := by
    intro j log hk hlink
    rw [show j.entry.kind = .symlink from hlink] at hk
    cases hk
  unfold Flow.netLocal at hs
  split at hs
  case h_1 =>
    split at hs <;> cases hs
    · exact ⟨h.done, nofun⟩
    · refine .of h rfl ?_
      show NetPc.sane _ (if cfg.durable then .registerRoot else .decode)
      split <;> trivial
  case h_2 =>
    split at hs
    · cases hs; exact ⟨h.done, nofun⟩
    · split at hs <;> cases hs
      exact ⟨h.done, nofun⟩
    · cases hs; exact ⟨h.done, nofun⟩
    · cases hs; exact ⟨h.done, trivial⟩
    · rename_i e rest _ hd
      cases hs
      apply start_sane
      · exact h.done
      · exact (Entry.decode_some hd).2.kind
  case h_3 j hj =>
    split at hs <;> cases hs
    · exact ⟨h.done, nofun⟩
    · have hk := hkind hj
      refine .of h (by rw [Flow.arrive_log]) ?_
      apply arrive_sane
      exact hk
    · exact .of h rfl trivial
  case h_4 j hj =>
    obtain ⟨r, hr, hs⟩ := Option.map_eq_some_iff.1 hs
    cases r <;> cases hs
    · exact ⟨h.done, readExact_error hr⟩
    · dsimp only
      split
      · exact .of h rfl trivial
      · refine .of h ?_ (linkText_sane _ _ _)
        rw [Flow.linkText_log]
        rfl
  case h_5 j target hj =>
    obtain ⟨r, hr, hs⟩ := Option.map_eq_some_iff.1 hs
    cases r <;> cases hs
    · exact ⟨h.done, readExact_error hr⟩
    · dsimp only
      split
      · refine .of h ?_ (linkText_sane _ _ _)
        rw [Flow.linkText_log]
        rfl
      · exact .of h rfl nofun
  case h_6 => split at hs <;> cases hs; exact ⟨h.done, nofun⟩
  case h_7 =>
    obtain ⟨fl1, h1, hs⟩ := Option.map_eq_some_iff.1 hs
    cases hs
    exact send_sane h h1 (fun fl hf => .of hf rfl (pump_sane _ _ _)) ⟨h.done, trivial⟩
  case h_8 =>
    split at hs
    · cases hs; exact .of h rfl trivial
    · split at hs <;> cases hs
      exact ⟨h.done, nofun⟩
  case h_9 =>
    split at hs
    · cases hs; exact ⟨h.done, nofun⟩
    · split at hs
      · cases hs; exact .of h rfl trivial
      · split at hs <;> cases hs
        exact ⟨h.done, nofun⟩
  case h_10 =>
    obtain ⟨fl1, h1, hs⟩ := Option.map_eq_some_iff.1 hs
    cases hs
    exact send_sane h h1 (fun fl hf => .of hf rfl (pump_sane _ _ _)) ⟨h.done, nofun⟩
  case h_11 =>
    obtain ⟨fl1, h1, hs⟩ := Option.map_eq_some_iff.1 hs
    cases hs
    exact send_sane h h1 (fun fl hf => .of hf rfl trivial) ⟨h.done, nofun⟩
  case h_12 =>
    split at hs
    · cases hs; exact .of h rfl trivial
    · split at hs <;> cases hs
      exact ⟨h.done, nofun⟩
    · cases hs
  case h_13 j actual hj =>
    obtain ⟨r, hr, hs⟩ := Option.map_eq_some_iff.1 hs
    cases r <;> cases hs
    · exact ⟨h.done, readExact_error hr⟩
    · dsimp only
      split
      · exact .of h rfl trivial
      · exact .of h rfl nofun
  case h_14 j hj =>
    rw [hj] at hpc
    have hk : j.entry.kind = .file := hpc.2.1
    obtain ⟨fl1, h1, hs⟩ := Option.map_eq_some_iff.1 hs
    cases hs
    exact send_sane h h1 (fun fl hf => .complete hf.done (hfile hk)) ⟨h.done, nofun⟩
  case h_15 => cases hs

theorem netResume_sane {sys : Sys} (hn : NetInv cfg fl) (h : Sane fl) (hreq : Flow.netRequest cfg c fl.net = some sys)
    (r : Except Errno Nat) (sh : Shared) : Sane (fl.netResume cfg c r sh).2 := by
  have hpc := hn.pc
  have hnet := h.net
  have hfail : ∀ e, e ≠ Err.unreachable → Sane (fl.fail e) := fun e he => ⟨h.done, he⟩
  have hdir : ∀ {j : Job} {log : Log}, j.entry.kind = .dir → (frameOf j log).Target := by
    intro j log hk hlink
    rw [show j.entry.kind = .symlink from hlink] at hk
    cases hk
  unfold Flow.netRequest at hreq
  split at hreq
  case h_14 => cases hreq
  all_goals
    rename_i hj
    rw [hj] at hpc hnet
    simp only [Flow.netResume, hj]
  case h_3 j _ _ _ =>
    split
    · refine .of h (by rw [Flow.arrive_log]) ?_
      apply arrive_sane
      exact hpc.1.framed.kind
    · exact .of h rfl trivial
    · exact hfail _ (by simp)
  case h_5 j => exact .made h (hdir hpc.2.2)
  case h_6 => exact .of h rfl trivial
  case h_7 j target =>
    -- the call was made, so the target has no NUL
    have hnul : 0 ∉ target := by
      intro hx
      rw [if_pos hx] at hreq
      cases hreq
    obtain ⟨-, -, -, hpart, hutf, -⟩ := hpc
    split
    · refine ⟨h.done, fun _ => ?_⟩
      show utf8 fl.log.part = true ∧ 0 ∉ fl.log.part
      rw [hpart]
      exact ⟨hutf, hnul⟩
    · exact hfail _ (by simp)
  case h_8 => exact .made h hnet
  case h_9 =>
    split
    · exact .complete h.done hnet
    · exact hfail _ (by simp)
  case h_13 => exact ⟨h.done, by rintro ⟨⟩⟩
  all_goals
    split
    all_goals first
      | exact .of h rfl trivial
      | exact hfail _ (by simp)

theorem netStep_sane (hn : NetInv cfg fl) (h : Sane fl) (hs : fl.netStep cfg c sh = some (sh', fl')) : Sane fl' := by
  unfold Flow.netStep at hs
  split at hs
  · obtain rfl := congrArg Prod.snd (Option.some.inj hs)
    exact netResume_sane hn h (by assumption) _ _
  · exact netLocal_sane hn h hs

theorem sane_inv {ok : State → Act → State → Prop} (h : Reach (step cfg) ok (.init cfg fs0) s) (i : Nat) : Sane (s.flow i) := by
  refine (flow_invariant (I := fun fl => FlowInv cfg fl ∧ Sane fl) h ⟨.init cfg, ⟨nofun, trivial⟩⟩ ?_ ?_ i).2
  · exact fun fl wire eof ⟨hi, hr⟩ => ⟨hi.wire _ _, hr.done, hr.net⟩
  · rintro c sh fl sh' fl' hf ⟨hi, hr⟩
    refine ⟨hf.inv hi, ?_⟩
    cases hf with
    | net h => exact netStep_sane hi.net hr h
    | hash _ h =>
      obtain ⟨_, _, _, _, _, _, rfl⟩ := hashStep_only h
      exact ⟨hr.done, hr.net⟩
    | writer h =>
      obtain ⟨_, _, _, _, _, _, rfl⟩ := writerStep_only h
      exact ⟨hr.done, hr.net⟩

/-! ## Panics -/

/-- What `read_entries` takes for granted at its expect, its unreachable arm, its slices and its
subtraction. -/
structure Safe (cfg : Cfg) (fl : Flow) : Prop where
  /-- There is a last component. -/
  named : ∀ x ∈ fl.log.heard, x.2 ≠ []
  arm : fl.net ≠ .finished (.error .unreachable)
  /-- The buffer a target is read into is small. -/
  target : ∀ j, fl.net = .at j .linkRead → j.entry.size.toNat ≤ MAX_PATH_LEN
  slice : ∀ j remaining, fl.net = .at j (.readBuf remaining) → 0 < remaining ∧ remaining ≤ j.entry.size.toNat
  /-- A read gives no more than the buffer holds and is missing. -/
  subtract : ∀ {c sh sh' fl' j remaining remaining' bytes}, fl.netStep cfg c sh = some (sh', fl') →
    fl.net = .at j (.readBuf remaining) → fl'.net = .at j (.sendData remaining' bytes) →
    0 < bytes.length ∧ bytes.length ≤ CHUNK ∧ remaining' + bytes.length = remaining

theorem readBuf_step {remaining remaining' : Nat} {bytes : Bytes} (hs : fl.netStep cfg c sh = some (sh', fl'))
    (hj : fl.net = .at j (.readBuf remaining)) (hj' : fl'.net = .at j (.sendData remaining' bytes)) :
    0 < bytes.length ∧ bytes.length ≤ CHUNK ∧ remaining' + bytes.length = remaining := by
  unfold Flow.netStep Flow.netRequest Flow.netLocal at hs
  rw [hj] at hs
  dsimp only at hs
  split at hs
  · cases hs; cases hj'
  · split at hs
    · rename_i hcount
      cases hs
      cases hj'
      rw [List.length_take]
      omega
    · split at hs <;> cases hs
      cases hj'

theorem Safe.of_inv (hn : NetInv cfg fl) (hs : Sane fl) : Safe cfg fl := by
  have hpc := hn.pc
  constructor
  · exact fun x hx => (sanitize_ok (hn.log.sane x hx)).1
  · intro h
    have hnet := hs.net
    rw [h] at hnet
    exact hnet rfl
  · intro j hj
    rw [hj] at hpc
    obtain ⟨hok, -, hk⟩ := hpc
    exact hok.framed.target hk
  · intro j remaining hj
    rw [hj] at hpc
    obtain ⟨-, -, hpos, hlen, -⟩ := hpc
    exact ⟨hpos, by omega⟩
  · exact fun hst hj hj' => readBuf_step hst hj hj'

/-! ## Acceptance -/

/-- These frames are whole, and the targets among them text without a NUL. -/
def Clean (cfg : Cfg) (frames : List Frame) : Prop := ∀ fr ∈ frames, fr.Whole cfg ∧ fr.Target

theorem Clean.sound (h : Clean cfg frames) : Sound cfg frames :=
  ⟨fun fr hfr => (h fr hfr).1, fun fr hfr hk => ((h fr hfr).2 hk).1⟩

/-- The stream starts with whole frames and a terminator. -/
def Accepted (cfg : Cfg) (stream : Bytes) : Prop := ∃ frames later, Clean cfg frames ∧ stream = streamOf frames ++ later

/-- A flow that has returned Ok has read such a stream, as far as its terminator. -/
theorem finished_ok (hn : NetInv cfg fl) (hs : Sane fl) (hok : fl.net = .finished (.ok ())) :
    Clean cfg fl.log.done ∧ fl.log.got = streamOf fl.log.done := by
  have hpc := hn.pc
  rw [hok] at hpc
  exact ⟨fun fr hfr => ⟨hn.log.whole fr hfr, hs.done fr hfr⟩, hpc.2.2⟩

/-- What `read_entries` makes of a stream when no call fails. -/
theorem finished_iff {r : Except Err Unit} (h : Reach (step cfg) (Smooth stream i) (.init cfg fs0) s) (hl : Live cfg s i)
    (hr : (s.flow i).net = .finished r) : r = .ok () ↔ Accepted cfg stream := by
  obtain ⟨hnet, -, hfed⟩ := smooth_inv h
  have hfed := hfed hl.1
  constructor
  · rintro rfl
    obtain ⟨hclean, hgot⟩ := finished_ok (flow_inv h i).net (sane_inv h i) hr
    obtain ⟨more, hmore⟩ := hfed.part
    exact ⟨_, (s.flow i).wire ++ more, hclean, by rw [← hmore, hgot, List.append_assoc]⟩
  · rintro ⟨frames, later, hclean, rfl⟩
    have hb := (unbroken_inv hclean.sound h).1
    cases r with
    | ok u => rfl
    | error e =>
      exfalso
      rw [hr] at hb
      have hexcused : e.excused frames := not_not.1 hb
      cases e with
      | nul =>
        obtain ⟨fr, hfr, hk, h0⟩ := hexcused
        exact ((hclean fr hfr).2 hk).2 h0
      | os => exact hnet _ hr trivial
      | descend => exact hnet _ hr trivial
      | _ => exact hexcused

/-- What stands behind the terminator makes no difference. -/
theorem finished_done {r : Except Err Unit} (h : Reach (step cfg) (Smooth (streamOf frames ++ later) i) (.init cfg fs0) s)
    (hl : Live cfg s i) (hr : (s.flow i).net = .finished r) (hc : Clean cfg frames) :
    (s.flow i).log.done = frames ∧ (s.flow i).log.got = streamOf frames := by
  obtain rfl := (finished_iff h hl hr).2 ⟨frames, later, hc, rfl⟩
  obtain ⟨hclean, hgot⟩ := finished_ok (flow_inv h i).net (sane_inv h i) hr
  obtain ⟨more, hmore⟩ := ((smooth_inv h).2.2 hl.1).part
  have hstream : encodeAll (s.flow i).log.done ++ ([0] ++ ((s.flow i).wire ++ more)) = streamOf frames ++ later := by
    rw [← hmore, hgot]
    simp [streamOf, Entry.terminator, Kind.toU8]
  obtain ⟨rest, hrest, hx⟩ := streamOf_split (fun fr hfr => (hclean fr hfr).1) (fun fr hfr => (hc fr hfr).1) hstream
  cases rest with
  | nil =>
    rw [List.append_nil] at hrest
    exact ⟨hrest.symm, by rw [hgot, hrest]⟩
  | cons fr rest =>
    exfalso
    have hd := decode_streamOf_cons (hc fr (by rw [hrest]; simp)).1 rest later
    rw [← hx, show [0] ++ ((s.flow i).wire ++ more) = 0 :: ((s.flow i).wire ++ more) from rfl, Entry.decode_terminator] at hd
    cases hd

/-- `read_entries` as a parser. On every input and whatever the calls answer it panics nowhere, takes
no more steps than its input brings, and never stands still once the input has ended. Where no call
fails it returns Ok exactly on the streams of whole frames and a terminator, has read those frames
and nothing behind the terminator, and what stands there makes no difference. -/
theorem entries_parsed (hd : 1 ≤ cfg.depth) (fs0 : Fs) (i : Nat) :
    (∀ s, Reachable cfg fs0 s → Safe cfg (s.flow i) ∧
      (∀ acts s', run (step cfg) s acts = some s' →
        acts.countP (Act.onFlow i) ≤ (s.flow i).work + PER_BYTE * (acts.map (Act.brings i)).sum) ∧
      (Live cfg s i → (s.flow i).eof = true → ¬ (s.flow i).netFinished → Moves cfg s i)) ∧
    (∀ stream s r, Reach (step cfg) (Smooth stream i) (.init cfg fs0) s → Live cfg s i → (s.flow i).net = .finished r →
      (r = .ok () ↔ Accepted cfg stream) ∧
      ∀ frames later, Clean cfg frames → stream = streamOf frames ++ later →
        (s.flow i).log.done = frames ∧ (s.flow i).log.got = streamOf frames) := by
  constructor
  · intro s h
    refine ⟨.of_inv (flow_inv h i).net (sane_inv h i), fun acts s' hrun => ?_, fun hl heof hnf => ?_⟩
    · have hle := turns_le i hrun
      omega
    · have hres : (s.flow i).result cfg = none := by
        unfold Flow.result
        split
        · rename_i hn _ _
          exact absurd (by simp [Flow.netFinished, hn]) hnf
        · rename_i hn _ _
          exact absurd (by simp [Flow.netFinished, hn]) hnf
        · rfl
      refine (moves_or_reads hd h hl hres).resolve_right fun hx => ?_
      rw [heof] at hx
      cases hx.2
  · intro stream s r h hl hr
    refine ⟨finished_iff h hl hr, ?_⟩
    rintro frames later hc rfl
    exact finished_done h hl hr hc

instance (w : WriterPc) : Decidable w.failed := by unfold WriterPc.failed; split <;> infer_instance

instance (n : NetPc) : Decidable n.failed := by unfold NetPc.failed; split <;> infer_instance

/-- A frame, the terminator and a byte behind it. -/
def trailing : Bytes := streamOf [fileFrame pathA [8]] ++ [7]

/-- The net thread reads to the terminator. -/
def readOut : List Act := List.flatten [opening single, [.deliver 0 trailing], netRuns 0 10]

theorem entries_parsed_trailing : ∃ s, Reach (step single) (Smooth trailing 0) (.init single rootOnly) s ∧
    (s.flow 0).net = .finished (.ok ()) ∧ (s.flow 0).wire = [7] ∧ Safe single (s.flow 0) ∧ Accepted single trailing := by
  have hrun : ((runIf (step single) (fun _ a s' => decide (a.fault = none ∧ ¬ (s'.flow 0).net.failed ∧ ¬ (s'.flow 0).writer.failed ∧
      (s'.main = .running → (s'.flow 0).log.got ++ (s'.flow 0).wire <+: trailing ∧ (s'.flow 0).eof = false)))
      (.init single rootOnly) readOut).any fun s =>
      decide ((s.flow 0).net = .finished (.ok ()) ∧ (s.flow 0).wire = [7] ∧ Live single s 0)) = true := by decide +kernel
  obtain ⟨s, hs, hv⟩ := (Option.any_eq_true _ _).1 hrun
  obtain ⟨hn, hw, hl⟩ := of_decide_eq_true hv
  have hsmooth : Reach (step single) (Smooth trailing 0) (.init single rootOnly) s := by
    refine .of_runIf (fun s a s' ha => ?_) hs
    obtain ⟨hf, hnet, hwriter, hfed⟩ := of_decide_eq_true ha
    refine ⟨?_, ?_, hwriter, fun hm => ⟨(hfed hm).1, fun he => ?_⟩⟩
    · rintro c rfl
      exact hf
    · exact fun e he => absurd (by rw [he]; trivial) hnet
    · rw [(hfed hm).2] at he
      cases he
  obtain ⟨hall, hparse⟩ := entries_parsed (show 1 ≤ single.depth by decide) rootOnly 0
  exact ⟨s, hsmooth, hn, hw, (hall s hsmooth.any).1, (hparse _ _ _ hsmooth hl hn).1.1 rfl⟩

end Thunderflash.Recv
