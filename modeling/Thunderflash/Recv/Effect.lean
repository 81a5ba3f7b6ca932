/-
What one step of a flow can do, said once: the channel operations of the net thread, the files
that change hands, and the calls that change the file system, each with what led to it.
-/
import Thunderflash.Recv.Net

namespace Thunderflash.Recv

open Codec Posix

variable {cfg : Cfg} {c : Choice} {sh sh' : Shared} {fl fl' : Flow} {j : Job} {r : Except Errno Nat}

/-! ## Calls -/

/-- The call `sys` has been made and has succeeded, on inode `i`. -/
structure Did (cfg : Cfg) (c : Choice) (sh : Shared) (sys : Sys) (i : Nat) (sh' : Shared) : Prop where
  exec : sh.fs.exec cfg.umask c.now sys = .ok (sh'.fs, i)
  trace : sh'.trace = sh.trace ++ [(sys, i)]
  regs : sh'.regs = sh.regs

theorem call_cases (cfg : Cfg) (c : Choice) (sh : Shared) (sys : Sys) :
    (∃ i, (call cfg c sh sys).2 = .ok i ∧ c.fault = none ∧ Did cfg c sh sys i (call cfg c sh sys).1) ∨
      (∃ e, (call cfg c sh sys).2 = .error e ∧ (call cfg c sh sys).1 = sh) := by
  unfold call
  split
  · exact .inr ⟨_, rfl, rfl⟩
  · split
    · rename_i hf _ fs i he
      exact .inl ⟨i, rfl, hf, he, rfl, rfl⟩
    · exact .inr ⟨_, rfl, rfl⟩

theorem call_ok {sys : Sys} {i : Nat} (h : (call cfg c sh sys).2 = .ok i) :
    c.fault = none ∧ Did cfg c sh sys i (call cfg c sh sys).1 := by
  rcases call_cases cfg c sh sys with ⟨i', hi, hd⟩ | ⟨e, he, -⟩
  · rw [hi] at h; cases h; exact hd
  · rw [he] at h; cases h

theorem call_did {sys : Sys} {i : Nat} (h : call cfg c sh sys = (sh', .ok i)) : Did cfg c sh sys i sh' := by
  have hd := (call_ok (congrArg Prod.snd h)).2
  rwa [h] at hd

theorem call_err {sys : Sys} {e : Errno} (h : (call cfg c sh sys).2 = .error e) : (call cfg c sh sys).1 = sh := by
  rcases call_cases cfg c sh sys with ⟨i', hi, -⟩ | ⟨e', -, hs⟩
  · rw [hi] at h; cases h
  · exact hs

theorem call_eq_err {sys : Sys} {e : Errno} (h : call cfg c sh sys = (sh', .error e)) : sh' = sh := by
  have he : (call cfg c sh sys).2 = .error e := by rw [h]
  have := call_err he
  rwa [h] at this

/-! ## Files in flight -/

def inFlights (ms : List Msg) : List InFlight := ms.filterMap Msg.inFlight

@[simp] theorem inFlights_nil : inFlights [] = [] := rfl

@[simp] theorem inFlights_cons (m : Msg) (ms : List Msg) :
    inFlights (m :: ms) = m.inFlight.toList ++ inFlights ms := by
  unfold inFlights
  cases h : m.inFlight <;> simp [h]

@[simp] theorem inFlights_append (a b : List Msg) : inFlights (a ++ b) = inFlights a ++ inFlights b := by
  simp [inFlights]

def NetPc.tokens : NetPc → List InFlight
  | .at _ (.sendBegin t) | .at _ (.dropBegin t) => [t]
  | _ => []

def HashPc.tokens : HashPc → List InFlight
  | .forward m | .orphan m => m.inFlight.toList
  | .closing l => inFlights l
  | .recv => []

def WriterPc.tokens : WriterPc → List InFlight
  | .recv none => []
  | .recv (some o) => [o.t]
  | .replace old t => [old, t]
  | .write o _ => [o.t]
  | .chmod t | .stamp t | .flush t | .rename t _ | .failDrop t _ | .lastDrop t => [t]
  -- the value is still dropped, but under its own name there is nothing left
  | .register _ | .lateDrop .. => []
  | .closing l _ => inFlights l

/-- The files a flow's threads and channels hold. -/
def Flow.tokens (fl : Flow) : List InFlight :=
  fl.net.tokens ++ (inFlights fl.hq ++ (fl.hash.tokens ++ (inFlights fl.wq ++ fl.writer.tokens)))

/-- How the files of a flow change hands in one step: `out` leave its threads, `ins` are new. -/
structure Hands (fl fl' : Flow) (born kept undone : List InFlight) : Prop where
  tokens : (fl'.tokens ++ (kept ++ undone)).Perm (fl.tokens ++ born)
  born : fl'.log.born = fl.log.born ++ born
  kept : fl'.log.kept = fl.log.kept ++ kept
  undone : fl'.log.undone = fl.log.undone ++ undone

/-- The step changes neither who holds which file nor what became of the others. -/
abbrev Same (fl fl' : Flow) : Prop := Hands fl fl' [] [] []

/-- What one step of a flow does to the disk and to the files in flight. -/
inductive Effect (cfg : Cfg) (c : Choice) (sh : Shared) (fl : Flow) (sh' : Shared) (fl' : Flow) : Prop
  | still : sh'.fs = sh.fs → Same fl fl' → Effect cfg c sh fl sh' fl'
  /-- A file written in place is complete, and the last call was none that changes the disk. -/
  | keep {t : InFlight} : sh'.fs = sh.fs → fl.writer = .flush t ∨ fl.writer = .stamp t → t.finalName = none →
      Hands fl fl' [] [t] [] → Effect cfg c sh fl sh' fl'
  /-- A drop whose unlink failed. -/
  | leave {t : InFlight} : sh'.fs = sh.fs → t ∈ fl.tokens →
      (∃ e, (call cfg c sh (.unlinkat t.parent t.name)).2 = .error e) →
      Hands fl fl' [] [] [t] → Effect cfg c sh fl sh' fl'
  | mkdir {j : Job} {d : Nat} {n : Name} {mode : UInt32} {i : Nat} :
      Did cfg c sh (.mkdirat d n mode) i sh' →
      (fl.net = .at j .dirMk ∧ d = j.dir ∧ n = j.name ∧ mode = j.entry.mode ||| 0o700) ∨
        (∃ done todo, fl.net = .at j (.walkMk done n todo) ∧ d = j.dir ∧ mode = 0o755) →
      Same fl fl' → Effect cfg c sh fl sh' fl'
  | clear {j : Job} {i : Nat} : Did cfg c sh (.unlinkat j.dir j.name) i sh' →
      (∃ target, fl.net = .at j (.linkUnlink target)) ∨ fl.net = .at j .placeUnlink →
      Same fl fl' → Effect cfg c sh fl sh' fl'
  | link {j : Job} {target : Bytes} {i : Nat} : Did cfg c sh (.symlinkat target j.dir j.name) i sh' →
      fl.net = .at j (.linkMake target) → Same fl fl' → Effect cfg c sh fl sh' fl'
  | date {j : Job} {i : Nat} : Did cfg c sh (.utimensat j.dir j.name j.entry.mtime) i sh' →
      fl.net = .at j .dirStamp ∨ fl.net = .at j .linkStamp → Same fl fl' → Effect cfg c sh fl sh' fl'
  | draw {j : Job} {tries i : Nat} :
      Did cfg c sh (.openExcl j.dir (scratchName j.name c.draw) (j.entry.mode ||| 0o600)) i sh' →
      fl.net = .at j (.tempCreate tries) → Hands fl fl' [Flow.scratchFile j c i] [] [] → Effect cfg c sh fl sh' fl'
  | place {j : Job} {again : Bool} {i : Nat} : Did cfg c sh (.openTrunc j.dir j.name (j.entry.mode ||| 0o600)) i sh' →
      fl.net = .at j (.placeCreate again) → Hands fl fl' [Flow.placedFile j i] [] [] → Effect cfg c sh fl sh' fl'
  | fill {o : Cursor} {bytes rest : Bytes} {i : Nat} : Did cfg c sh (.write o.t.file o.off bytes) i sh' →
      fl.writer = .write o (bytes ++ rest) → bytes ≠ [] → fl'.writer = .write ⟨o.t, o.off + bytes.length⟩ rest →
      Same fl fl' → Effect cfg c sh fl sh' fl'
  | chmod {t : InFlight} {i : Nat} : Did cfg c sh (.fchmod t.file (t.mode &&& 0o777)) i sh' → fl.writer = .chmod t →
      Same fl fl' → Effect cfg c sh fl sh' fl'
  | stamp {t : InFlight} {i : Nat} : Did cfg c sh (.futimens t.file t.mtime) i sh' → fl.writer = .stamp t →
      Same fl fl' ∨ (t.finalName = none ∧ Hands fl fl' [] [t] []) → Effect cfg c sh fl sh' fl'
  | commit {t : InFlight} {final : Name} {i : Nat} : Did cfg c sh (.renameat t.parent t.name final) i sh' →
      fl.writer = .rename t final → Hands fl fl' [] [t] [] → Effect cfg c sh fl sh' fl'
  | undo {t : InFlight} {i : Nat} : Did cfg c sh (.unlinkat t.parent t.name) i sh' → t ∈ fl.tokens →
      Hands fl fl' [] [] [t] → Effect cfg c sh fl sh' fl'
  | late {t : InFlight} {e : Err} {i : Nat} : Did cfg c sh (.unlinkat t.parent t.name) i sh' →
      fl.writer = .lateDrop t e → Same fl fl' → Effect cfg c sh fl sh' fl'

/-! ## The net thread -/

/-- All a flow's other threads see of it is unchanged. -/
structure NetOnly (fl fl' : Flow) : Prop where
  hq : fl'.hq = fl.hq
  hash : fl'.hash = fl.hash
  hasher : fl'.hasher = fl.hasher
  wq : fl'.wq = fl.wq
  writer : fl'.writer = fl.writer
  sent : fl'.log.sent = fl.log.sent
  taken : fl'.log.taken = fl.log.taken
  born : fl'.log.born = fl.log.born
  kept : fl'.log.kept = fl.log.kept
  undone : fl'.log.undone = fl.log.undone

theorem NetOnly.same (h : NetOnly fl fl') (ht : fl'.net.tokens = fl.net.tokens) : Same fl fl' :=
  ⟨by simp only [Flow.tokens, h.hq, h.hash, h.wq, h.writer, ht]; exact List.Perm.refl _,
    by simp [h.born], by simp [h.kept], by simp [h.undone]⟩

namespace Flow

/-- What `dispatch` and its like come to: the next program point, and changes to nothing but the
cache, the statistics and the log of the wire. -/
structure Goes (fl fl' : Flow) : Prop extends NetOnly fl fl' where
  reply : fl'.reply = fl.reply
  pool : fl'.pool = fl.pool
  tokens : fl'.net.tokens = []

theorem fail_goes (fl : Flow) (e : Err) : Goes fl (fl.fail e) := ⟨⟨rfl, rfl, rfl, rfl, rfl, rfl, rfl, rfl, rfl, rfl⟩, rfl, rfl, rfl⟩

theorem goto_goes (fl : Flow) (j : Job) (st : Stage) (h : (NetPc.at j st).tokens = []) : Goes fl (fl.goto j st) :=
  ⟨⟨rfl, rfl, rfl, rfl, rfl, rfl, rfl, rfl, rfl, rfl⟩, rfl, rfl, h⟩

theorem complete_goes (fl : Flow) (j : Job) : Goes fl (fl.complete j) :=
  ⟨⟨rfl, rfl, rfl, rfl, rfl, rfl, rfl, rfl, rfl, rfl⟩, rfl, rfl, rfl⟩

theorem dispatch_goes (fl : Flow) (j : Job) : Goes fl (fl.dispatch j) := by
  unfold dispatch
  split
  · exact goto_goes _ _ _ rfl
  · exact goto_goes _ _ _ rfl
  · exact goto_goes _ _ _ rfl
  · exact fail_goes _ _

theorem arrive_goes (fl : Flow) (j : Job) : Goes fl (fl.arrive j) := by
  have h := dispatch_goes { fl with cache := some (j.parents, j.dir) } j
  exact ⟨⟨h.hq, h.hash, h.hasher, h.wq, h.writer, h.sent, h.taken, h.born, h.kept, h.undone⟩, h.reply, h.pool, h.tokens⟩

theorem made_goes (fl : Flow) (j : Job) : Goes fl (fl.made cfg j) := by
  unfold made
  split
  · exact goto_goes _ _ _ rfl
  · exact complete_goes _ _

theorem linkText_goes (fl : Flow) (j : Job) (target : Bytes) : Goes fl (fl.linkText j target) := by
  unfold linkText
  split
  · exact goto_goes _ _ _ rfl
  · exact fail_goes _ _

theorem pump_goes (fl : Flow) (j : Job) (remaining : Nat) : Goes fl (fl.pump cfg j remaining) := by
  unfold pump
  refine goto_goes _ _ _ ?_
  split
  · rfl
  · split <;> rfl

theorem Goes.trans {fl1 fl2 fl3 : Flow} (h : Goes fl1 fl2) (h' : Goes fl2 fl3) : Goes fl1 fl3 :=
  ⟨⟨h'.hq.trans h.hq, h'.hash.trans h.hash, h'.hasher.trans h.hasher, h'.wq.trans h.wq, h'.writer.trans h.writer,
    h'.sent.trans h.sent, h'.taken.trans h.taken, h'.born.trans h.born, h'.kept.trans h.kept,
    h'.undone.trans h.undone⟩, h'.reply.trans h.reply, h'.pool.trans h.pool, h'.tokens⟩

/-- Changing what only the net thread reads. -/
theorem Goes.of_net {fl0 : Flow} (h : Goes fl0 fl') (h0 : NetOnly fl fl0) (hr : fl0.reply = fl.reply)
    (hp : fl0.pool = fl.pool) : Goes fl fl' :=
  ⟨⟨h.hq.trans h0.hq, h.hash.trans h0.hash, h.hasher.trans h0.hasher, h.wq.trans h0.wq, h.writer.trans h0.writer,
    h.sent.trans h0.sent, h.taken.trans h0.taken, h.born.trans h0.born, h.kept.trans h0.kept,
    h.undone.trans h0.undone⟩, h.reply.trans hr, h.pool.trans hp, h.tokens⟩

theorem start_goes (fl : Flow) (e : Entry) : Goes fl (fl.start cfg e) := by
  unfold start
  split
  · exact fail_goes _ _
  · have h0 : ∀ hs, NetOnly fl { fl with log := { fl.log with heard := hs } } :=
      fun _ => ⟨rfl, rfl, rfl, rfl, rfl, rfl, rfl, rfl, rfl, rfl⟩
    dsimp only
    split
    · split
      · exact (dispatch_goes _ _).of_net (h0 _) rfl rfl
      · exact (goto_goes _ _ _ rfl).of_net (h0 _) rfl rfl
    · exact (goto_goes _ _ _ rfl).of_net (h0 _) rfl rfl

end Flow

/-- The message a stage is about to send. -/
def Stage.sends : Stage → Option Msg
  | .sendBegin t => some (.begin t)
  | .sendData _ bytes => some (.data bytes)
  | .sendFinish => some .finish
  | .sendEnd => some .endFile
  | _ => none

/-- The net thread's steps without a call, as the other threads see them. -/
inductive LocalMove (cfg : Cfg) (fl fl' : Flow) : Prop
  | goes : Flow.Goes fl fl' → fl.net.tokens = [] → (∀ j, fl.net = .at j .awaitDigest → fl.reply = none) →
      (∀ j, fl'.net ≠ .at j .awaitDigest) → LocalMove cfg fl fl'
  | takeBuf {j : Job} {remaining : Nat} : fl.net = .at j (.takeBuf remaining) → 0 < fl.pool →
      fl' = { fl with pool := fl.pool - 1, net := .at j (.readBuf remaining) } → LocalMove cfg fl fl'
  | reply {j : Job} {d : Digest} : fl.net = .at j .awaitDigest → fl.reply = some d →
      fl' = { fl with reply := none, net := .at j (.fileDigest d) } → LocalMove cfg fl fl'
  | push {j : Job} {st : Stage} {m : Msg} : fl.net = .at j st → st.sends = some m → ¬ fl.sinkClosed cfg →
      fl.sinkRoom cfg → Flow.Goes (fl.push cfg m) fl' →
      (if m = .finish then fl'.net = .at j .awaitDigest ∧ fl'.log = (fl.push cfg m).log
        else ∀ j, fl'.net ≠ .at j .awaitDigest) → LocalMove cfg fl fl'
  | back {j : Job} {t : InFlight} : fl.net = .at j (.sendBegin t) → fl' = fl.goto j (.dropBegin t) →
      LocalMove cfg fl fl'

namespace Flow

theorem dispatch_not_await (fl : Flow) (j k : Job) : (fl.dispatch j).net ≠ .at k .awaitDigest := by
  unfold dispatch; split <;> simp [goto, fail]

theorem arrive_not_await (fl : Flow) (j k : Job) : (fl.arrive j).net ≠ .at k .awaitDigest := by
  unfold arrive; exact dispatch_not_await _ _ _

theorem made_not_await (fl : Flow) (j k : Job) : (fl.made cfg j).net ≠ .at k .awaitDigest := by
  unfold made; split <;> simp [goto, complete]

theorem linkText_not_await (fl : Flow) (j k : Job) (target : Bytes) : (fl.linkText j target).net ≠ .at k .awaitDigest := by
  unfold linkText; split <;> simp [goto, fail]

theorem pump_not_await (fl : Flow) (j k : Job) (r : Nat) : (fl.pump cfg j r).net ≠ .at k .awaitDigest := by
  unfold pump
  simp only [goto, ne_eq, NetPc.at.injEq, not_and]
  intro _
  split
  · simp
  · split <;> simp

theorem start_not_await (fl : Flow) (e : Entry) (k : Job) : (fl.start cfg e).net ≠ .at k .awaitDigest := by
  unfold start
  split
  · simp [fail]
  · dsimp only
    split
    · split
      · exact dispatch_not_await _ _ _
      · simp [goto]
    · simp [goto]

theorem consume_only (fl : Flow) (rest : Bytes) (part trailer : Bytes) :
    NetOnly fl { fl.consume rest with log := { (fl.consume rest).log with part, trailer } } :=
  ⟨rfl, rfl, rfl, rfl, rfl, rfl, rfl, rfl, rfl, rfl⟩

/-- What the net thread's steps without a call leave alone, and what they do. -/
theorem netLocal_move (h : fl.netLocal cfg c sh = some (sh', fl')) :
    (sh'.fs = sh.fs ∧ sh'.trace = sh.trace ∧ sh'.regs = sh.regs) ∧ ¬ fl.netFinished ∧ LocalMove cfg fl fl' := by
  unfold netLocal at h
  split at h
  case h_1 hn =>
    refine ⟨?_, by simp [netFinished, hn], ?_⟩
    · split at h <;> cases h <;> exact ⟨rfl, rfl, rfl⟩
    · split at h <;> cases h
      · exact .goes (fail_goes _ _) (by rw [hn]; rfl) (by simp [hn]) (by simp [fail])
      · refine .goes ⟨⟨rfl, rfl, rfl, rfl, rfl, rfl, rfl, rfl, rfl, rfl⟩, rfl, rfl, ?_⟩ (by rw [hn]; rfl) (by simp [hn]) ?_
        · dsimp only; split <;> rfl
        · dsimp only; split <;> simp
  case h_2 hn =>
    refine ⟨?_, by simp [netFinished, hn], ?_⟩
    · repeat' split at h
      all_goals cases h <;> exact ⟨rfl, rfl, rfl⟩
    · split at h
      · cases h; exact .goes (fail_goes _ _) (by rw [hn]; rfl) (by simp [hn]) (by simp [fail])
      · split at h <;> cases h
        exact .goes (fail_goes _ _) (by rw [hn]; rfl) (by simp [hn]) (by simp [fail])
      · cases h; exact .goes (fail_goes _ _) (by rw [hn]; rfl) (by simp [hn]) (by simp [fail])
      · cases h
        exact .goes ⟨⟨rfl, rfl, rfl, rfl, rfl, rfl, rfl, rfl, rfl, rfl⟩, rfl, rfl, rfl⟩ (by rw [hn]; rfl) (by simp [hn]) (by simp)
      · cases h
        exact .goes ((start_goes _ _).of_net (consume_only _ _ _ _) rfl rfl) (by rw [hn]; rfl) (by simp [hn])
          (fun _ => start_not_await _ _ _)
  case h_3 j hn =>
    refine ⟨?_, by simp [netFinished, hn], ?_⟩
    · split at h <;> cases h <;> exact ⟨rfl, rfl, rfl⟩
    · split at h <;> cases h
      · exact .goes (fail_goes _ _) (by rw [hn]; rfl) (by simp [hn]) (by simp [fail])
      · exact .goes (arrive_goes _ _) (by rw [hn]; rfl) (by simp [hn]) (fun _ => arrive_not_await _ _ _)
      · exact .goes (goto_goes _ _ _ rfl) (by rw [hn]; rfl) (by simp [hn]) (by simp [goto])
  case h_4 j hn =>
    refine ⟨?_, by simp [netFinished, hn], ?_⟩
    all_goals
      obtain ⟨r, -, hs⟩ := Option.map_eq_some_iff.1 h
      cases r <;> cases hs
    · exact ⟨rfl, rfl, rfl⟩
    · exact ⟨rfl, rfl, rfl⟩
    · exact .goes (fail_goes _ _) (by rw [hn]; rfl) (by simp [hn]) (by simp [fail])
    · dsimp only
      split
      · exact .goes ((goto_goes _ _ _ rfl).of_net (consume_only _ _ _ _) rfl rfl) (by rw [hn]; rfl) (by simp [hn]) (by simp [goto])
      · exact .goes ((linkText_goes _ _ _).of_net (consume_only _ _ _ _) rfl rfl) (by rw [hn]; rfl) (by simp [hn])
          (fun _ => linkText_not_await _ _ _ _)
  case h_5 j target hn =>
    refine ⟨?_, by simp [netFinished, hn], ?_⟩
    all_goals
      obtain ⟨r, -, hs⟩ := Option.map_eq_some_iff.1 h
      cases r <;> cases hs
    · exact ⟨rfl, rfl, rfl⟩
    · exact ⟨rfl, rfl, rfl⟩
    · exact .goes (fail_goes _ _) (by rw [hn]; rfl) (by simp [hn]) (by simp [fail])
    · dsimp only
      split
      · exact .goes ((linkText_goes _ _ _).of_net (consume_only _ _ _ _) rfl rfl) (by rw [hn]; rfl) (by simp [hn])
          (fun _ => linkText_not_await _ _ _ _)
      · exact .goes ((fail_goes _ _).of_net (consume_only _ _ _ _) rfl rfl) (by rw [hn]; rfl) (by simp [hn]) (by simp [fail])
  case h_6 j target hn =>
    split at h <;> cases h
    exact ⟨⟨rfl, rfl, rfl⟩, by simp [netFinished, hn],
      .goes (fail_goes _ _) (by rw [hn]; rfl) (by simp [hn]) (by simp [fail])⟩
  case h_7 j t hn =>
    obtain ⟨fl1, hs1, hs⟩ := Option.map_eq_some_iff.1 h
    cases hs
    refine ⟨⟨rfl, rfl, rfl⟩, by simp [netFinished, hn], ?_⟩
    rcases send_some hs1 with ⟨-, rfl⟩ | ⟨hc, hr, rfl⟩
    · exact .back hn rfl
    · exact .push hn rfl hc hr (pump_goes _ _ _) (by simpa using fun _ => pump_not_await _ _ _ _)
  case h_8 j remaining hn =>
    split at h
    · cases h
      exact ⟨⟨rfl, rfl, rfl⟩, by simp [netFinished, hn], .takeBuf hn (by assumption) rfl⟩
    · split at h <;> cases h
      exact ⟨⟨rfl, rfl, rfl⟩, by simp [netFinished, hn],
        .goes (fail_goes _ _) (by rw [hn]; rfl) (by simp [hn]) (by simp [fail])⟩
  case h_9 j remaining hn =>
    split at h
    · cases h
      exact ⟨⟨rfl, rfl, rfl⟩, by simp [netFinished, hn],
        .goes (fail_goes _ _) (by rw [hn]; rfl) (by simp [hn]) (by simp [fail])⟩
    · split at h
      · cases h
        exact ⟨⟨rfl, rfl, rfl⟩, by simp [netFinished, hn],
          .goes ((goto_goes _ _ _ rfl).of_net (consume_only _ _ _ _) rfl rfl) (by rw [hn]; rfl) (by simp [hn]) (by simp [goto])⟩
      · split at h <;> cases h
        exact ⟨⟨rfl, rfl, rfl⟩, by simp [netFinished, hn],
          .goes (fail_goes _ _) (by rw [hn]; rfl) (by simp [hn]) (by simp [fail])⟩
  case h_10 j remaining bytes hn =>
    obtain ⟨fl1, hs1, hs⟩ := Option.map_eq_some_iff.1 h
    cases hs
    refine ⟨⟨rfl, rfl, rfl⟩, by simp [netFinished, hn], ?_⟩
    rcases send_some hs1 with ⟨-, rfl⟩ | ⟨hc, hr, rfl⟩
    · exact .goes (fail_goes _ _) (by rw [hn]; rfl) (by simp [hn]) (by simp [fail])
    · exact .push hn rfl hc hr (pump_goes _ _ _) (by simpa using fun _ => pump_not_await _ _ _ _)
  case h_11 j hn =>
    obtain ⟨fl1, hs1, hs⟩ := Option.map_eq_some_iff.1 h
    cases hs
    refine ⟨⟨rfl, rfl, rfl⟩, by simp [netFinished, hn], ?_⟩
    rcases send_some hs1 with ⟨-, rfl⟩ | ⟨hc, hr, rfl⟩
    · exact .goes (fail_goes _ _) (by rw [hn]; rfl) (by simp [hn]) (by simp [fail])
    · exact .push hn rfl hc hr (goto_goes _ _ _ rfl) (by simp [goto])
  case h_12 j hn =>
    refine ⟨?_, by simp [netFinished, hn], ?_⟩
    · repeat' split at h
      all_goals cases h <;> exact ⟨rfl, rfl, rfl⟩
    · split at h
      · rename_i d hd
        cases h; exact .reply hn hd rfl
      · rename_i hr _
        split at h <;> cases h
        exact .goes (fail_goes _ _) (by rw [hn]; rfl) (by simp [hr]) (by simp [fail])
      · cases h
  case h_13 j actual hn =>
    refine ⟨?_, by simp [netFinished, hn], ?_⟩
    all_goals
      obtain ⟨r, -, hs⟩ := Option.map_eq_some_iff.1 h
      cases r <;> cases hs
    · exact ⟨rfl, rfl, rfl⟩
    · exact ⟨rfl, rfl, rfl⟩
    · exact .goes (fail_goes _ _) (by rw [hn]; rfl) (by simp [hn]) (by simp [fail])
    · dsimp only
      split
      · exact .goes ((goto_goes _ _ _ rfl).of_net (consume_only _ _ _ _) rfl rfl) (by rw [hn]; rfl) (by simp [hn]) (by simp [goto])
      · exact .goes ((fail_goes _ _).of_net (consume_only _ _ _ _) rfl rfl) (by rw [hn]; rfl) (by simp [hn]) (by simp [fail])
  case h_14 j hn =>
    obtain ⟨fl1, hs1, hs⟩ := Option.map_eq_some_iff.1 h
    cases hs
    refine ⟨⟨rfl, rfl, rfl⟩, by simp [netFinished, hn], ?_⟩
    rcases send_some hs1 with ⟨-, rfl⟩ | ⟨hc, hr, rfl⟩
    · exact .goes (fail_goes _ _) (by rw [hn]; rfl) (by simp [hn]) (by simp [fail])
    · exact .push hn rfl hc hr (complete_goes _ _) (by simp [complete])
  case h_15 => cases h

/-- Nothing in the channels and in the other threads has changed. -/
structure Apart (fl fl' : Flow) : Prop where
  hq : fl'.hq = fl.hq
  hash : fl'.hash = fl.hash
  hasher : fl'.hasher = fl.hasher
  reply : fl'.reply = fl.reply
  wq : fl'.wq = fl.wq
  writer : fl'.writer = fl.writer
  sent : fl'.log.sent = fl.log.sent
  taken : fl'.log.taken = fl.log.taken
  kept : fl'.log.kept = fl.log.kept
  pool : fl'.pool = fl.pool
  await : ∀ j, fl.net ≠ .at j .awaitDigest
  await' : ∀ j, fl'.net ≠ .at j .awaitDigest

theorem Goes.apart (h : Goes fl fl') (ha : ∀ j, fl.net ≠ .at j .awaitDigest) (ha' : ∀ j, fl'.net ≠ .at j .awaitDigest) :
    Apart fl fl' :=
  ⟨h.hq, h.hash, h.hasher, h.reply, h.wq, h.writer, h.sent, h.taken, h.kept, h.pool, ha, ha'⟩

theorem Goes.still (h : Goes fl fl') (ht : fl.net.tokens = []) (hfs : sh'.fs = sh.fs) : Effect cfg c sh fl sh' fl' :=
  .still hfs (h.toNetOnly.same (by rw [h.tokens, ht]))

theorem Goes.sameHands (h : Goes fl fl') (ht : fl.net.tokens = []) : Same fl fl' :=
  h.toNetOnly.same (by rw [h.tokens, ht])

theorem register_fs (d : Nat) (sh : Shared) : (sh.register d).fs = sh.fs ∧ (sh.register d).trace = sh.trace := by
  unfold Shared.register; split <;> exact ⟨rfl, rfl⟩

/-- The net thread has gone on, with the same files in flight, and nobody else has noticed. -/
structure GoesOn (sh : Shared) (fl : Flow) (sh' : Shared) (fl' : Flow) : Prop where
  fs : sh'.fs = sh.fs
  goes : Goes fl fl'
  tokens : fl.net.tokens = []
  await : ∀ j, fl.net ≠ .at j .awaitDigest
  await' : ∀ j, fl'.net ≠ .at j .awaitDigest

theorem goesOn_fail {st : Stage} (hn : fl.net = .at j st) (ht : (NetPc.at j st).tokens = [])
    (ha : st ≠ .awaitDigest) (e : Err) : GoesOn sh fl sh (fl.fail e) :=
  ⟨rfl, fail_goes _ _, by rw [hn, ht], by simp [hn, ha], by simp [fail]⟩

theorem goesOn_goto {st : Stage} (sh : Shared) (j' : Job) (st' : Stage) (hn : fl.net = .at j st) (ht : (NetPc.at j st).tokens = [])
    (ha : st ≠ .awaitDigest) (ht' : (NetPc.at j' st').tokens = []) (ha' : st' ≠ .awaitDigest) :
    GoesOn sh fl sh (fl.goto j' st') :=
  ⟨rfl, goto_goes _ _ _ ht', by rw [hn, ht], by simp [hn, ha], by simp [goto, ha']⟩

theorem goesOn_made {st : Stage} (cfg : Cfg) (sh : Shared) (hn : fl.net = .at j st) (ht : (NetPc.at j st).tokens = [])
    (ha : st ≠ .awaitDigest) : GoesOn sh fl sh (fl.made cfg j) :=
  ⟨rfl, made_goes _ _, by rw [hn, ht], by simp [hn, ha], fun _ => made_not_await _ _ _⟩

/-- A call that fails changes nothing, unless it was the unlink of a file that is dropped. -/
theorem netResume_error {sys : Sys} (sh : Shared) (e : Errno) (hreq : netRequest cfg c fl.net = some sys)
    (hdrop : ∀ j t, fl.net ≠ .at j (.dropBegin t)) :
    GoesOn sh fl (fl.netResume cfg c (.error e) sh).1 (fl.netResume cfg c (.error e) sh).2 := by
  unfold netRequest at hreq
  split at hreq
  case h_1 hn =>
    simp only [netResume, hn]
    exact ⟨rfl, fail_goes _ _, by rw [hn]; rfl, by simp [hn], by simp [fail]⟩
  case h_13 hn => exact absurd hn (hdrop _ _)
  case h_14 => cases hreq
  all_goals
    rename_i hn
    simp only [netResume, hn]
  case h_5 | h_8 => exact goesOn_made _ _ hn rfl (by simp)
  all_goals repeat' split
  all_goals first
    | exact goesOn_fail hn rfl (by simp) _
    | exact goesOn_goto _ _ _ hn rfl (by simp) rfl (by simp)
    | contradiction

theorem born_hands {t : InFlight} (ht : fl.net.tokens = []) (j : Job) :
    Hands fl ((fl.logBorn t).goto j (.sendBegin t)) [t] [] [] := by
  refine ⟨?_, rfl, by simp [goto, logBorn], by simp [goto, logBorn]⟩
  simp only [tokens, goto, logBorn, ht, List.nil_append, List.append_nil]
  simp only [NetPc.tokens, List.singleton_append]
  exact (List.perm_append_singleton t _).symm

theorem GoesOn.effect {fl' : Flow} {sh1 : Shared} (h : GoesOn sh1 fl sh' fl') (hfs : sh1.fs = sh.fs) :
    Effect cfg c sh fl sh' fl' ∧ Apart fl fl' :=
  ⟨h.goes.still h.tokens (h.fs.trans hfs), h.goes.apart h.await h.await'⟩

theorem GoesOn.same {sh1 : Shared} (h : GoesOn sh1 fl sh' fl') : Same fl fl' ∧ Apart fl fl' :=
  ⟨h.goes.sameHands h.tokens, h.goes.apart h.await h.await'⟩

theorem born_apart {st : Stage} {t : InFlight} (hn : fl.net = .at j st) (ha : st ≠ .awaitDigest) :
    Apart fl ((fl.logBorn t).goto j (.sendBegin t)) :=
  ⟨rfl, rfl, rfl, rfl, rfl, rfl, rfl, rfl, rfl, rfl, by simp [hn, ha], by simp [goto]⟩

/-- A call that succeeds. -/
theorem netResume_ok {sys : Sys} {i : Nat} (hreq : netRequest cfg c fl.net = some sys)
    (hdrop : ∀ j t, fl.net ≠ .at j (.dropBegin t)) (hd : Did cfg c sh sys i sh') :
    Effect cfg c sh fl (fl.netResume cfg c (.ok i) sh').1 (fl.netResume cfg c (.ok i) sh').2 ∧
      Apart fl (fl.netResume cfg c (.ok i) sh').2 := by
  unfold netRequest at hreq
  split at hreq
  case h_1 hn =>
    cases hreq
    simp only [netResume, hn]
    have hfs := (Fs.exec_fstat hd.exec).1
    refine GoesOn.effect ⟨(register_fs _ sh').1, ⟨⟨rfl, rfl, rfl, rfl, rfl, rfl, rfl, rfl, rfl, rfl⟩, rfl, rfl, rfl⟩,
      by rw [hn]; rfl, by simp [hn], by simp⟩ hfs
  case h_13 hn => exact absurd hn (hdrop _ _)
  case h_14 => cases hreq
  case h_7 j target hn =>
    split at hreq <;> cases hreq
    have hg := goesOn_goto sh' j .linkStamp hn rfl (by simp) rfl (by simp)
    simp only [netResume, hn]
    exact ⟨.link hd hn hg.same.1, hg.same.2⟩
  all_goals
    rename_i hn
    cases hreq
    simp only [netResume, hn]
  case h_2 j done component todo =>
    have hg := goesOn_goto sh' j (.walkOpen done component todo) hn rfl (by simp) rfl (by simp)
    exact ⟨.mkdir hd (.inr ⟨done, todo, hn, rfl, rfl⟩) hg.same.1, hg.same.2⟩
  case h_3 j done component todo =>
    have hfs := (Fs.exec_openDir hd.exec).1
    split
    · rename_i hr; cases hr
      exact @GoesOn.effect _ _ _ _ _ _ sh' ⟨rfl, arrive_goes _ _, by rw [hn]; rfl, by simp [hn],
        fun _ => arrive_not_await _ _ _⟩ hfs
    · rename_i hr; cases hr
      exact GoesOn.effect (goesOn_goto _ _ _ hn rfl (by simp) rfl (by simp)) hfs
    · contradiction
  case h_4 j =>
    have hg := goesOn_goto sh' j .dirStamp hn rfl (by simp) rfl (by simp)
    exact ⟨.mkdir hd (.inl ⟨hn, rfl, rfl, rfl⟩) hg.same.1, hg.same.2⟩
  case h_5 j =>
    have hg := goesOn_made cfg sh' hn rfl (by simp)
    exact ⟨.date hd (.inl hn) hg.same.1, hg.same.2⟩
  case h_6 j target =>
    have hg := goesOn_goto sh' j (.linkMake target) hn rfl (by simp) rfl (by simp)
    exact ⟨.clear hd (.inl ⟨target, hn⟩) hg.same.1, hg.same.2⟩
  case h_8 j =>
    have hg := goesOn_made cfg sh' hn rfl (by simp)
    exact ⟨.date hd (.inr hn) hg.same.1, hg.same.2⟩
  case h_9 j =>
    have hfs := (Fs.exec_fstat hd.exec).1
    exact GoesOn.effect ⟨(register_fs _ sh').1, complete_goes _ _, by rw [hn]; rfl, by simp [hn],
      by simp [complete]⟩ hfs
  case h_10 j tries =>
    have ht : fl.net.tokens = [] := by rw [hn]; rfl
    exact ⟨.draw hd hn (born_hands ht j), born_apart hn (by simp)⟩
  case h_11 j again =>
    have ht : fl.net.tokens = [] := by rw [hn]; rfl
    exact ⟨.place hd hn (born_hands ht j), born_apart hn (by simp)⟩
  case h_12 j =>
    have hg := goesOn_goto sh' j (.placeCreate true) hn rfl (by simp) rfl (by simp)
    exact ⟨.clear hd (.inr hn) hg.same.1, hg.same.2⟩

/-- The outcome of a call of the net thread: what it does to the disk and to the files in flight,
and that the other threads see nothing of it. -/
theorem netResume_effect {sys : Sys} (hreq : netRequest cfg c fl.net = some sys)
    (hcall : call cfg c sh sys = (sh', r)) :
    Effect cfg c sh fl (fl.netResume cfg c r sh').1 (fl.netResume cfg c r sh').2 ∧
      Apart fl (fl.netResume cfg c r sh').2 := by
  by_cases hdrop : ∃ j t, fl.net = .at j (.dropBegin t)
  · obtain ⟨j, t, hn⟩ := hdrop
    rw [hn] at hreq
    cases hreq
    have hh : Hands fl ((fl.logUndone t).fail .writerGone) [] [] [t] := by
      refine ⟨?_, by simp [fail, logUndone], by simp [fail, logUndone], rfl⟩
      simp only [tokens, fail, logUndone, hn, NetPc.tokens, List.nil_append, List.append_nil, List.singleton_append]
      exact List.perm_append_singleton t _
    have ha : Apart fl ((fl.logUndone t).fail .writerGone) :=
      ⟨rfl, rfl, rfl, rfl, rfl, rfl, rfl, rfl, rfl, rfl, by simp [hn], by simp [fail]⟩
    have hmem : t ∈ fl.tokens := by simp [tokens, hn, NetPc.tokens]
    simp only [netResume, hn]
    refine ⟨?_, ha⟩
    cases r with
    | ok i =>
      have hd := (call_ok (by rw [hcall])).2
      rw [hcall] at hd
      exact .undo hd hmem hh
    | error e =>
      have he := call_eq_err hcall
      exact .leave (by rw [he]) hmem ⟨e, by rw [hcall]⟩ hh
  · have hdrop' : ∀ j t, fl.net ≠ .at j (.dropBegin t) := fun j t hn => hdrop ⟨j, t, hn⟩
    cases r with
    | error e =>
      have he := call_eq_err hcall
      subst he
      have hg := netResume_error sh' e hreq hdrop'
      exact ⟨hg.goes.still hg.tokens hg.fs, hg.goes.apart hg.await hg.await'⟩
    | ok i =>
      have hd := (call_ok (i := i) (by rw [hcall])).2
      rw [hcall] at hd
      dsimp only at hd
      exact netResume_ok hreq hdrop' hd

end Flow

end Thunderflash.Recv
