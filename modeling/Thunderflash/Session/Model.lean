/-
Both ends of a session and the connections between them: what one end wrote arrives at the other in
order, in any pieces, until the connection is cut.
-/
import Thunderflash.Send.Main
import Thunderflash.Recv.Accounts

namespace Thunderflash.Session

open Codec Posix Lts

/-- What the two ends of a session share through its handshakes, and what each has of its own. -/
structure Setup where
  items : List Send.Item
  verify : Bool
  flows : Nat
  blake3 : Bytes → Digest
  /-- `queue_depth` on either side. -/
  sendDepth : Nat
  recvDepth : Nat
  root : Nat
  durable : Bool
  umask : UInt32

def Setup.sender (x : Setup) : Send.Job := ⟨⟨x.verify, x.sendDepth, x.blake3⟩, x.flows, x.items⟩

def Setup.receiver (x : Setup) : Recv.Cfg := ⟨x.root, x.verify, x.durable, x.recvDepth, x.flows, x.umask, x.blake3⟩

structure State where
  snd : Send.State
  rcv : Recv.State
  /-- How much of what was written on each connection has arrived, and how much of the reply. -/
  arrived : Nat → Nat
  back : Nat

inductive Act
  | sendMain (c : Send.Choice)
  | lane (i : Nat) (a : Send.Act)
  | net (i : Nat) (c : Recv.Choice)
  | hash (i : Nat) (c : Recv.Choice)
  | writer (i : Nat) (c : Recv.Choice)
  | recvMain (c : Recv.Choice)
  /-- The next bytes on a connection arrive. -/
  | deliver (i : Nat) (count : Nat)
  /-- A connection breaks, and of what was under way only so much arrives. -/
  | cut (i : Nat) (keep : Nat)
  | reply (count : Nat)
  | cutReply
  deriving DecidableEq

namespace State

/-- A step of the sender, and one of the receiver. -/
def send (x : Setup) (a : Send.SessionAct) (s : State) : Option State :=
  (Send.sessionStep x.sender s.snd a).map fun snd => { s with snd }

def recv (x : Setup) (a : Recv.Act) (s : State) : Option State :=
  (Recv.step x.receiver s.rcv a).map fun rcv => { s with rcv }

end State

/-- The next bytes of a stream of which `from_` have arrived. -/
def next (stream : Bytes) (from_ count : Nat) : Bytes := (stream.drop from_).take count

def step (x : Setup) (s : State) : Act → Option State
  | .deliver i count =>
    let bytes := next (s.snd.sent i) (s.arrived i) count
    (Recv.step x.receiver s.rcv (.deliver i bytes)).map fun rcv =>
      { s with rcv, arrived := Function.update s.arrived i (s.arrived i + bytes.length) }
  | .reply count =>
    let bytes := next s.rcv.reply s.back count
    (Send.sessionStep x.sender s.snd (.hear bytes)).map fun snd => { s with snd, back := s.back + bytes.length }
  | .sendMain c => s.send x (.main c)
  | .lane i a => s.send x (.lane i a)
  | .cutReply => s.send x .cut
  | .net i c => s.recv x (.net i c)
  | .hash i c => s.recv x (.hash i c)
  | .writer i c => s.recv x (.writer i c)
  | .recvMain c => s.recv x (.main c)
  | .cut i keep => s.recv x (.cut i keep)

def State.init (x : Setup) (fs : Fs) : State := ⟨.init x.sender, .init x.receiver fs, fun _ => 0, 0⟩

/-- The states a session into destination `fs` can be in. -/
abbrev Reachable (x : Setup) (fs : Fs) (s : State) : Prop := Reach (step x) Any (.init x fs) s

variable {x : Setup} {fs0 : Fs} {s s' : State}

/-- A step of one end that brings no bytes, or bytes that arrive on a connection or in the reply. -/
inductive Moves (x : Setup) (s s' : State) : Prop
  | send (a : Send.SessionAct) (snd : Send.State) (h : Send.sessionStep x.sender s.snd a = some snd)
      (ha : ∀ bytes, a ≠ .hear bytes) (he : s' = { s with snd })
  | recv (a : Recv.Act) (rcv : Recv.State) (h : Recv.step x.receiver s.rcv a = some rcv)
      (ha : ∀ i bytes, a ≠ .deliver i bytes) (he : s' = { s with rcv })
  | deliver (i count : Nat) (rcv : Recv.State)
      (h : Recv.step x.receiver s.rcv (.deliver i (next (s.snd.sent i) (s.arrived i) count)) = some rcv)
      (he : s' = { s with
        rcv
        arrived := Function.update s.arrived i (s.arrived i + (next (s.snd.sent i) (s.arrived i) count).length) })
  | reply (count : Nat) (snd : Send.State) (h : Send.sessionStep x.sender s.snd (.hear (next s.rcv.reply s.back count)) = some snd)
      (he : s' = { s with snd, back := s.back + (next s.rcv.reply s.back count).length })

theorem send_moves {a : Send.SessionAct} (h : s.send x a = some s') (ha : ∀ bytes, a ≠ .hear bytes) : Moves x s s' := by
  obtain ⟨snd, hs, he⟩ := Option.map_eq_some_iff.1 h
  exact .send a snd hs ha he.symm

theorem recv_moves {a : Recv.Act} (h : s.recv x a = some s') (ha : ∀ i bytes, a ≠ .deliver i bytes) : Moves x s s' := by
  obtain ⟨rcv, hs, he⟩ := Option.map_eq_some_iff.1 h
  exact .recv a rcv hs ha he.symm

theorem step_moves {a : Act} (h : step x s a = some s') : Moves x s s' := by
  cases a with
  | deliver i count =>
    obtain ⟨rcv, hs, he⟩ := Option.map_eq_some_iff.1 h
    exact .deliver i count rcv hs he.symm
  | reply count =>
    obtain ⟨snd, hs, he⟩ := Option.map_eq_some_iff.1 h
    exact .reply count snd hs he.symm
  | sendMain c => exact @send_moves _ _ _ (.main c) h nofun
  | lane i a => exact @send_moves _ _ _ (.lane i a) h nofun
  | cutReply => exact @send_moves _ _ _ .cut h nofun
  | net i c => exact @recv_moves _ _ _ (.net i c) h nofun
  | hash i c => exact @recv_moves _ _ _ (.hash i c) h nofun
  | writer i c => exact @recv_moves _ _ _ (.writer i c) h nofun
  | recvMain c => exact @recv_moves _ _ _ (.main c) h nofun
  | cut i keep => exact @recv_moves _ _ _ (.cut i keep) h nofun

/-! ## Each end by itself -/

theorem sender_reachable (h : Reachable x fs0 s) : Reach (Send.sessionStep x.sender) Any (.init x.sender) s.snd := by
  refine h.project State.snd fun s a s' hst _ => ?_
  cases step_moves hst with
  | send a snd hs _ he => subst he; exact .step .init hs trivial
  | recv a rcv _ _ he => subst he; exact .init
  | deliver i count rcv _ he => subst he; exact .init
  | reply count snd hs he => subst he; exact .step .init hs trivial

theorem receiver_reachable (h : Reachable x fs0 s) : Recv.Reachable x.receiver fs0 s.rcv := by
  refine h.project State.rcv fun s a s' hst _ => ?_
  cases step_moves hst with
  | send a snd _ _ he => subst he; exact .init
  | recv a rcv hs _ he => subst he; exact .step .init hs trivial
  | deliver i count rcv hs he => subst he; exact .step .init hs trivial
  | reply count snd _ he => subst he; exact .init

/-! ## The connections -/

theorem take_next (stream : Bytes) (n count : Nat) :
    stream.take n ++ next stream n count = stream.take (n + (next stream n count).length) := by
  have hlen : (next stream n count).length = min count (stream.length - n) := by simp [next]
  rw [List.take_add, hlen]
  congr 1
  show (stream.drop n).take count = (stream.drop n).take (min count (stream.length - n))
  rw [← List.length_drop, List.take_eq_take_iff]
  omega

/-- What each flow of the receiver has is a first part of what the sender wrote on it, and all that
has arrived unless the connection broke. -/
structure Wired (snd : Send.State) (rcv : Recv.State) (arrived : Nat → Nat) : Prop where
  bound : ∀ i, arrived i ≤ (snd.sent i).length
  part : ∀ i, rcv.stream i <+: (snd.sent i).take (arrived i)
  whole : ∀ i, (rcv.flow i).eof = false → rcv.stream i = (snd.sent i).take (arrived i)

theorem Wired.send {snd snd' : Send.State} {rcv : Recv.State} {arrived : Nat → Nat} (h : Wired snd rcv arrived)
    (hg : ∀ i, snd.sent i <+: snd'.sent i) : Wired snd' rcv arrived := by
  have htake : ∀ i, (snd'.sent i).take (arrived i) = (snd.sent i).take (arrived i) := by
    intro i
    obtain ⟨more, hm⟩ := hg i
    rw [← hm, List.take_append_of_le_length (h.bound i)]
  refine ⟨fun i => (h.bound i).trans (hg i).length_le, fun i => ?_, fun i => ?_⟩
  · rw [htake i]; exact h.part i
  · rw [htake i]; exact h.whole i

theorem Wired.recv {snd : Send.State} {rcv rcv' : Recv.State} {arrived : Nat → Nat} (h : Wired snd rcv arrived)
    (hk : ∀ i, Recv.Kept rcv rcv' i) : Wired snd rcv' arrived := by
  refine ⟨h.bound, fun i => (hk i).part.trans (h.part i), fun i he => ?_⟩
  obtain ⟨he', hs⟩ := (hk i).whole he
  rw [hs]
  exact h.whole i he'

theorem Wired.deliver {snd : Send.State} {rcv rcv' : Recv.State} {arrived : Nat → Nat} {cfg : Recv.Cfg} {i count : Nat}
    (h : Wired snd rcv arrived) (hs : Recv.step cfg rcv (.deliver i (next (snd.sent i) (arrived i) count)) = some rcv') :
    Wired snd rcv' (Function.update arrived i (arrived i + (next (snd.sent i) (arrived i) count).length)) := by
  obtain ⟨hopen, hstream⟩ := Recv.deliver_stream hs
  have hnext := take_next (snd.sent i) (arrived i) count
  refine ⟨fun k => ?_, fun k => ?_, fun k he => ?_⟩
  · by_cases hk : k = i
    · subst hk
      rw [Function.update_self]
      have := h.bound k
      simp only [next, List.length_take, List.length_drop]
      omega
    · rw [Function.update_of_ne hk]
      exact h.bound k
  · by_cases hk : k = i
    · subst hk
      rw [Function.update_self, (hstream k).2, if_pos rfl, h.whole k hopen, hnext]
    · rw [Function.update_of_ne hk, (hstream k).2, if_neg hk]
      exact h.part k
  · rw [(hstream k).1] at he
    by_cases hk : k = i
    · subst hk
      rw [Function.update_self, (hstream k).2, if_pos rfl, h.whole k hopen, hnext]
    · rw [Function.update_of_ne hk, (hstream k).2, if_neg hk]
      exact h.whole k he

/-- What the sender makes of the reply: it has the first bytes of it, and then the answer they begin
with. -/
def Replied (x : Setup) (snd : Send.State) (reply : Bytes) (back : Nat) : Send.MainPc → Prop
  | .offering _ | .awaiting => snd.heard = reply.take back
  | .returned (.error _) => True
  | _ => ∃ rest, readBitmap (Send.offered x.items) reply = .ok snd.have_ rest

theorem Replied.more {snd : Send.State} {reply reply' : Bytes} {back : Nat} {pc : Send.MainPc} (h : Replied x snd reply back pc)
    (hb : back ≤ reply.length) (hg : reply <+: reply') : Replied x snd reply' back pc := by
  obtain ⟨more, rfl⟩ := hg
  have hread : (∃ rest, readBitmap (Send.offered x.items) reply = .ok snd.have_ rest) →
      ∃ rest, readBitmap (Send.offered x.items) (reply ++ more) = .ok snd.have_ rest :=
    fun ⟨rest, hr⟩ => ⟨_, (stable_readBitmap _).ok hr more⟩
  cases pc with
  | offering | awaiting => rw [Replied, List.take_append_of_le_length hb]; exact h
  | pairing | running | acking => exact hread h
  | returned r =>
    cases r with
    | ok st => exact hread h
    | error e => trivial

theorem Replied.send {snd snd' : Send.State} {reply : Bytes} {back : Nat} {a : Send.SessionAct} (h : Replied x snd reply back snd.main)
    (hs : Send.sessionStep x.sender snd a = some snd') (ha : ∀ bytes, a ≠ .hear bytes) : Replied x snd' reply back snd'.main := by
  cases a with
  | main c =>
    have hs : Send.mainStep x.sender c snd = some snd' := hs
    unfold Send.mainStep at hs
    split at hs
    case h_1 hm => rw [hm] at h; cases hs; exact h
    case h_2 hm =>
      rw [hm] at h
      split at hs
      · cases hs; trivial
      · split at hs <;> cases hs; exact h
    case h_3 hm =>
      rw [hm] at h
      split at hs
      · cases hs; trivial
      · split at hs <;> cases hs; trivial
      · rename_i have_ rest _ hr
        cases hs
        have hheard : snd.heard = reply.take back := h
        have hread : ∃ rest, readBitmap (Send.offered x.items) reply = .ok have_ rest := by
          rw [hheard] at hr
          have := (stable_readBitmap _).ok hr (reply.drop back)
          rw [List.take_append_drop] at this
          exact ⟨_, this⟩
        show Replied x (snd.filtered x.sender have_ rest) reply back (if x.flows = 1 then .running else .pairing)
        split <;> exact hread
    case h_4 hm => rw [hm] at h; split at hs <;> cases hs <;> first | exact h | trivial
    case h_5 hm =>
      rw [hm] at h
      split at hs
      · split at hs <;> cases hs <;> first | exact h | trivial
      · cases hs
    case h_6 hm =>
      rw [hm] at h
      split at hs
      · cases hs; trivial
      · split at hs <;> cases hs; trivial
      · rename_i b rest _ _
        cases hs
        show Replied x _ reply back (.returned (if b = ACK then .ok snd.stats else .error .refused))
        split
        · exact h
        · trivial
    case h_7 => cases hs
  | lane i a =>
    obtain ⟨-, -, ln, -, rfl⟩ := Send.lane_some hs
    exact h
  | hear bytes => exact absurd rfl (ha bytes)
  | cut => cases hs; exact h

structure Linked (x : Setup) (s : State) : Prop where
  wired : Wired s.snd s.rcv s.arrived
  back : s.back ≤ s.rcv.reply.length
  replied : Replied x s.snd s.rcv.reply s.back s.snd.main

theorem linked_inv (h : Reachable x fs0 s) : Linked x s := by
  refine h.invariant (I := Linked x) ?_ ?_
  · refine ⟨⟨fun i => Nat.zero_le _, fun i => ?_, fun i _ => ?_⟩, Nat.zero_le _, rfl⟩
    · show (if i = 0 then [] else []) ++ ([] ++ []) <+: _
      split <;> exact List.nil_prefix
    · show (if i = 0 then [] else []) ++ ([] ++ []) = _
      split <;> rfl
  · rintro s a s' hr ih hst -
    cases step_moves hst with
    | send a snd hs ha he =>
      subst he
      have hok := Send.session_inv (sender_reachable hr)
      exact ⟨ih.wired.send (Send.sent_grows hok hs), ih.back, ih.replied.send hs ha⟩
    | recv a rcv hs ha he =>
      subst he
      have hg := Recv.reply_grows hs
      exact ⟨ih.wired.recv (Recv.step_kept (receiver_reachable hr) hs ha), ih.back.trans hg.length_le, ih.replied.more ih.back hg⟩
    | deliver i count rcv hs he =>
      subst he
      have hg := Recv.reply_grows hs
      exact ⟨ih.wired.deliver hs, ih.back.trans hg.length_le, ih.replied.more ih.back hg⟩
    | reply count snd hs he =>
      subst he
      rw [show Send.sessionStep x.sender s.snd (.hear (next s.rcv.reply s.back count)) = if s.snd.eof then none else
        some { s.snd with heard := s.snd.heard ++ next s.rcv.reply s.back count } from rfl] at hs
      split at hs <;> cases hs
      refine ⟨ih.wired.send fun i => List.prefix_rfl, ?_, ?_⟩
      · have := ih.back
        simp only [next, List.length_take, List.length_drop]
        omega
      · have hrep := ih.replied
        show Replied x _ s.rcv.reply _ s.snd.main
        cases hm : s.snd.main with
        | offering | awaiting =>
          rw [hm] at hrep
          have hheard : s.snd.heard = s.rcv.reply.take s.back := hrep
          show s.snd.heard ++ next s.rcv.reply s.back count = _
          rw [hheard, take_next]
        | pairing | running | acking => rw [hm] at hrep; exact hrep
        | returned r => rw [hm] at hrep; cases r <;> exact hrep

end Thunderflash.Session
