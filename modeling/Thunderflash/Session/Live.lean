/-
A session does not hang: as long as an end has not returned, a thread of one of the two can go on, bytes
are under way, or an end that has returned lets go of its connections.
-/
import Thunderflash.Session.Agreement
import Thunderflash.Recv.Live
import Thunderflash.Send.Work

namespace Thunderflash.Recv

open Codec Posix Lts

variable {cfg : Cfg} {fl : Flow} {sh : Shared} {s : State} {fs0 : Fs}

/-! ## What a read needs -/

/-- The net thread does not wait for the socket when a header is complete, and what the entry announces is there. -/
theorem reads_enough (hn : NetInv cfg fl) (hr : fl.net.reads) (hdec : fl.net = .decode → Entry.decode fl.wire ≠ .more)
    (hin : ∀ j st, fl.net = .at j st → j.entry.kind ≠ .dir →
      j.entry.size.toNat + (if cfg.verify then DIGEST_LEN else 0) ≤ fl.log.part.length + fl.log.trailer.length + fl.wire.length) :
    (fl.netStep cfg plain sh).isSome := by
  have hexact : ∀ {n : Nat}, n ≤ fl.wire.length → (fl.readExact plain n).isSome := by
    intro n hle
    unfold Flow.readExact
    rw [show plain.fault = none from rfl]
    dsimp only
    rw [if_pos hle]
    rfl
  have hpc := hn.pc
  unfold Flow.netStep
  cases hj : fl.net with
  | decode =>
    simp only [Flow.netRequest, Flow.netLocal, hj]
    rw [show plain.fault = none from rfl]
    cases hd : Entry.decode fl.wire with
    | more => exact absurd hd (hdec hj)
    | fail e => rfl
    | ok e rest => cases e <;> rfl
  | «at» j st =>
    rw [hj] at hpc hr
    obtain ⟨-, hst⟩ := hpc
    have hin := hin j st hj
    cases st with
    | linkRead =>
      obtain ⟨⟨-, hpart, htr⟩, hk⟩ := hst
      have hin := hin (by simp [hk])
      rw [hpart, htr] at hin
      simp only [Flow.netRequest, Flow.netLocal, hj, Option.isSome_map]
      refine hexact ?_
      simp only [List.length_nil] at hin
      omega
    | linkDigest target =>
      obtain ⟨-, hk, hv, hpart, hlen, htr⟩ := hst
      have hin := hin (by simp [hk])
      rw [hpart, hlen, htr, if_pos hv] at hin
      simp only [Flow.netRequest, Flow.netLocal, hj, Option.isSome_map]
      refine hexact ?_
      simp only [List.length_nil] at hin
      omega
    | readBuf remaining =>
      obtain ⟨hk, hpos, hlen, htr, -⟩ := hst
      have hin := hin (by simp [hk])
      rw [htr] at hin
      simp only [List.length_nil] at hin
      have hcount : 0 < plain.count ∧ plain.count ≤ min remaining CHUNK ∧ plain.count ≤ fl.wire.length :=
        ⟨Nat.one_pos, show 1 ≤ min remaining CHUNK by unfold CHUNK; omega, show 1 ≤ fl.wire.length by omega⟩
      simp only [Flow.netRequest, Flow.netLocal, hj]
      rw [show plain.fault = none from rfl]
      dsimp only
      rw [if_pos hcount]
      rfl
    | fileDigest actual =>
      obtain ⟨hk, hv, hlen, htr, -, -, -⟩ := hst
      have hin := hin (by simp [hk])
      rw [hlen, htr, if_pos hv] at hin
      simp only [Flow.netRequest, Flow.netLocal, hj, Option.isSome_map]
      refine hexact ?_
      simp only [List.length_nil] at hin
      omega
    | _ => exact hr.elim
  | _ => rw [hj] at hr; exact hr.elim

/-- Has `accept_one` returned? -/
def MainPc.over : MainPc → Prop
  | .returned _ => True
  | _ => False

/-- What the receiver can be waiting for: the next entry of the manifest, or what comes next on a flow. -/
theorem receiver_waits (hd : 1 ≤ cfg.depth) (h : Reachable cfg fs0 s) (hm : ¬ s.main.over) :
    (∃ s', mainStep cfg plain s = some s') ∨ (∃ i < cfg.flows, Moves cfg s i) ∨
      (s.main = .manifest ∧ (s.flow 0).eof = false ∧ Entry.decode (s.flow 0).wire = .more) ∨
      ∃ i < cfg.flows, s.main = .running ∧ (s.flow i).eof = false ∧ (s.flow i).net.reads ∧ (s.flow i).netStep cfg plain s.sh = none := by
  cases hk : s.main with
  | returned r => exact absurd (by rw [hk]; trivial) hm
  | openRoot | answer | pairing | acking => exact .inl (by unfold mainStep; rw [hk]; exact ⟨_, rfl⟩)
  | manifest =>
    cases hd : Entry.decode (s.flow 0).wire with
    | more =>
      cases he : (s.flow 0).eof with
      | false => exact .inr (.inr (.inl ⟨rfl, rfl, rfl⟩))
      | true =>
        left
        unfold mainStep
        rw [hk, hd]
        dsimp only [plain]
        rw [if_pos he]
        exact ⟨_, rfl⟩
    | fail e => exact .inl (by unfold mainStep; rw [hk, hd]; exact ⟨_, rfl⟩)
    | ok e rest => exact .inl (by unfold mainStep; rw [hk, hd]; cases e <;> exact ⟨_, rfl⟩)
  | chainRoot e parents name => exact .inl (by unfold mainStep; rw [hk]; cases parents <;> exact ⟨_, rfl⟩)
  | chain e name dir done component todo =>
    left
    unfold mainStep
    rw [hk]
    dsimp only
    rcases hc : call cfg plain s.sh (.openDir dir component) with ⟨sh, r⟩
    cases r <;> cases todo <;> exact ⟨_, rfl⟩
  | stat e name dir =>
    left
    unfold mainStep
    rw [hk]
    dsimp only
    rcases hc : call cfg plain s.sh (.fstatat dir name) with ⟨sh, r⟩
    cases r <;> exact ⟨_, rfl⟩
  | flushing todo =>
    left
    unfold mainStep
    rw [hk]
    cases todo with
    | nil => exact ⟨_, rfl⟩
    | cons d todo =>
      dsimp only
      rcases hc : call cfg plain s.sh (.fsync d) with ⟨sh, r⟩
      cases r <;> exact ⟨_, rfl⟩
  | running =>
    by_cases hall : ∀ i < cfg.flows, ((s.flow i).result cfg).isSome
    · left
      unfold mainStep
      rw [hk]
      dsimp only
      rw [if_pos hall]
      cases firstError cfg s <;> exact ⟨_, rfl⟩
    · obtain ⟨i, hi, hr⟩ : ∃ i < cfg.flows, (s.flow i).result cfg = none := by
        simpa using hall
      have hl : Live cfg s i := ⟨hk, hi⟩
      rcases moves_or_reads hd h hl hr with hmv | ⟨hreads, he⟩
      · exact .inr (.inl ⟨i, hi, hmv⟩)
      · cases hs : (s.flow i).netStep cfg plain s.sh with
        | none => exact .inr (.inr (.inr ⟨i, hi, rfl, he, hreads, hs⟩))
        | some y =>
          refine .inr (.inl ⟨i, hi, plain, rfl, .inl ?_⟩)
          show (threadStep cfg s i (Flow.netStep cfg plain)).isSome
          unfold threadStep
          rw [if_pos hl, hs]
          rfl

end Thunderflash.Recv

namespace Thunderflash.Send

open Codec Lts

variable {job : Job} {s s' : State} {ok : State → SessionAct → State → Prop}

/-- Has `send_to` returned? -/
def MainPc.over : MainPc → Prop
  | .returned _ => True
  | _ => False

/-- While the lanes are joined, their threads have been spawned. -/
theorem spawned_inv (h : Reach (sessionStep job) ok (.init job) s) : s.main = .running → s.spawned = true := by
  refine h.invariant (I := fun s => s.main = .running → s.spawned = true) nofun ?_
  intro s a s' _ ih hst _
  cases a with
  | main c =>
    intro hm
    have hst : mainStep job c s = some s' := hst
    unfold mainStep at hst
    split at hst
    case h_1 => cases hst; cases hm
    case h_2 =>
      split at hst
      · cases hst; cases hm
      · split at hst <;> cases hst; cases hm
    case h_3 =>
      split at hst
      · cases hst; cases hm
      · split at hst <;> cases hst; cases hm
      · rename_i have_ rest _ _
        cases hst
        have hm : (if job.flows = 1 then MainPc.running else .pairing) = .running := hm
        split at hm
        · rename_i h1
          exact decide_eq_true h1
        · cases hm
    case h_4 =>
      split at hst <;> cases hst
      · cases hm
      · rfl
    case h_5 =>
      split at hst
      · split at hst <;> cases hst <;> cases hm
      · cases hst
    case h_6 =>
      split at hst
      · cases hst; cases hm
      · split at hst <;> cases hst; cases hm
      · cases hst; cases hm
    case h_7 => cases hst
  | lane i a =>
    obtain ⟨-, -, ln, -, rfl⟩ := lane_some hst
    exact ih
  | hear bytes =>
    rw [show sessionStep job s (.hear bytes) = if s.eof then none else some { s with heard := s.heard ++ bytes } from rfl] at hst
    split at hst <;> cases hst
    exact ih
  | cut => cases hst; exact ih

/-- What the sender can be waiting for: the answer, or the acknowledgement. -/
theorem sender_waits (hd : 1 ≤ job.cfg.depth) (h : Reach (sessionStep job) Any (.init job) s) (hm : ¬ s.main.over) :
    (∃ s', mainStep job plain s = some s') ∨ (∃ i < job.flows, s.spawned = true ∧ Moves job.cfg (s.lane i)) ∨
      (s.main = .awaiting ∧ s.eof = false ∧ readBitmap (offered job.items) s.heard = .more) ∨
      (s.main = .acking ∧ s.eof = false ∧ s.heard = []) := by
  have hok := session_inv h
  cases hk : s.main with
  | returned r => exact absurd (by rw [hk]; trivial) hm
  | offering todo =>
    left
    unfold mainStep
    rw [hk]
    cases todo with
    | nil => exact ⟨_, rfl⟩
    | cons b todo =>
      have hcount : 0 < plain.count ∧ plain.count ≤ (b :: todo).length := ⟨Nat.one_pos, by simp [plain]⟩
      rw [show plain.fault = none from rfl]
      dsimp only
      rw [if_pos hcount]
      exact ⟨_, rfl⟩
  | awaiting =>
    cases hr : readBitmap (offered job.items) s.heard with
    | more =>
      cases he : s.eof with
      | false => exact .inr (.inr (.inl ⟨rfl, rfl, rfl⟩))
      | true =>
        left
        unfold mainStep
        rw [hk, hr]
        dsimp only [plain]
        rw [if_pos he]
        exact ⟨_, rfl⟩
    | fail e => exact e.elim
    | ok have_ rest => exact .inl (by unfold mainStep; rw [hk, hr]; exact ⟨_, rfl⟩)
  | pairing => exact .inl (by unfold mainStep; rw [hk]; exact ⟨_, rfl⟩)
  | acking =>
    cases hh : s.heard with
    | nil =>
      cases he : s.eof with
      | false => exact .inr (.inr (.inr ⟨rfl, rfl, rfl⟩))
      | true =>
        left
        unfold mainStep
        rw [hk, hh]
        dsimp only [plain]
        rw [if_pos he]
        exact ⟨_, rfl⟩
    | cons b rest => exact .inl (by unfold mainStep; rw [hk, hh]; exact ⟨_, rfl⟩)
  | running =>
    by_cases hall : ∀ i < job.flows, ((s.lane i).result).isSome
    · left
      unfold mainStep
      rw [hk]
      dsimp only
      rw [if_pos hall]
      cases firstFailure job s <;> exact ⟨_, rfl⟩
    · obtain ⟨i, hi, hr⟩ : ∃ i < job.flows, (s.lane i).result = none := by
        simpa using hall
      rw [hk] at hok
      refine .inr (.inl ⟨i, hi, spawned_inv h hk, lane_progress hd (hok.1.lanes i) fun hdone => ?_⟩)
      obtain ⟨-, -, hret⟩ := hdone
      unfold Lane.returned at hret
      unfold Lane.result at hr
      split at hr
      · cases hr
      · cases hr
      · cases hr
      · rename_i h1 h2 h3
        split at hret
        · rename_i r hsock
          cases r with
          | ok u => exact h1 hsock
          | error e => exact h2 e hsock
        · exact h3 (by assumption)
        · exact hret

end Thunderflash.Send

namespace Thunderflash.Session

open Codec Posix Lts

open Send (Item Sent manifest)

variable {x : Setup} {fs0 : Fs} {s s' : State} {scfg : Send.Cfg} {rcfg : Recv.Cfg}

/-- Frames at the start of a lane's stream are its first frames, and what follows them is the stream of the others. -/
theorem sent_rest (hd : SameDigest scfg rcfg) : ∀ {frs : List Sent} {done : List Recv.Frame} {w : Bytes},
    (∀ fr ∈ frs, fr.Whole ∧ fr.item.header = fr.item.entry.encode ∧ fr.item.entry.Framed) → (∀ fr ∈ done, fr.Whole rcfg) →
    Recv.encodeAll done ++ w = Send.encodeAll scfg frs ++ [0] →
    ∃ first rest, frs = first ++ rest ∧ List.Forall₂ Same first done ∧ w = Send.encodeAll scfg rest ++ [0]
  | frs, [], w, _, _, h => ⟨[], frs, rfl, .nil, h⟩
  | [], fr' :: done, w, _, hr, h => by
    exfalso
    have hw := hr fr' (by simp)
    obtain ⟨rest, hdec⟩ : ∃ rest, Entry.decode (Recv.encodeAll (fr' :: done) ++ w) = .ok (some fr'.entry) rest := by
      rw [Recv.encodeAll_cons, Recv.Frame.encode, List.append_assoc, List.append_assoc]
      exact ⟨_, Entry.decode_encode hw.framed _⟩
    rw [h] at hdec
    have hend : Entry.decode (Send.encodeAll scfg [] ++ [0]) = .ok none [] := Entry.decode_terminator []
    rw [hend] at hdec
    cases hdec
  | fr :: frs, fr' :: done, w, hs, hr, h => by
    obtain ⟨hp, hh, hf⟩ := hs fr (by simp)
    have hw := hr fr' (by simp)
    have hl : Recv.encodeAll (fr' :: done) ++ w = fr'.entry.encode ++ (fr'.payload ++ (fr'.trailer ++ (Recv.encodeAll done ++ w))) := by
      simp [Recv.Frame.encode]
    have hr' : Send.encodeAll scfg (fr :: frs) ++ [0] =
        fr.item.entry.encode ++ (fr.payload ++ (Send.trailerOf scfg fr.item.entry fr.payload ++ (Send.encodeAll scfg frs ++ [0]))) := by
      show fr.encode scfg ++ Send.encodeAll scfg frs ++ [0] = _
      simp [Sent.encode, hh]
    rw [hl, hr'] at h
    have hdec := Entry.decode_encode hw.framed (fr'.payload ++ (fr'.trailer ++ (Recv.encodeAll done ++ w)))
    rw [h, Entry.decode_encode hf] at hdec
    injection hdec with hentry hrest
    have hentry : fr.item.entry = fr'.entry := Option.some.inj hentry
    have hlen : fr.payload.length = fr'.payload.length := by
      rw [hw.payload, ← payloadLen_eq hw.framed, ← hentry]
      exact hp
    obtain ⟨hpay, hrest⟩ := List.append_inj hrest hlen
    have hsame : Same fr fr' := ⟨hentry.symm, hpay.symm⟩
    rw [← hsame.trailer hd hw] at hrest
    obtain ⟨first, rest, rfl, hfirst, hw'⟩ := sent_rest hd (fun y hy => hs y (by simp [hy])) (fun y hy => hr y (by simp [hy]))
      (List.append_cancel_left hrest).symm
    exact ⟨fr :: first, rest, rfl, .cons hsame hfirst, hw'⟩

/-- A flow to which all that its lane wrote has come does not wait for the socket. -/
theorem flow_enough {fl : Recv.Flow} {sh : Recv.Shared} {frs : List Sent} (hd : SameDigest scfg rcfg)
    (hs : ∀ fr ∈ frs, fr.Whole ∧ fr.item.header = fr.item.entry.encode ∧ fr.item.entry.Framed) (hn : Recv.NetInv rcfg fl)
    (hw : fl.log.got ++ fl.wire = Send.encodeAll scfg frs ++ [0]) (hr : fl.net.reads) : (fl.netStep rcfg Recv.plain sh).isSome := by
  have hpc := hn.pc
  refine Recv.reads_enough hn hr ?_ ?_
  · intro hj
    rw [hj] at hpc
    rw [hpc.2.2] at hw
    obtain ⟨first, rest, rfl, -, hwire⟩ := sent_rest hd hs hn.log.whole hw
    rw [hwire]
    cases rest with
    | nil =>
      have hend : Entry.decode (Send.encodeAll scfg [] ++ [0]) = .ok none [] := Entry.decode_terminator []
      rw [hend]
      intro hmore
      cases hmore
    | cons fr rest =>
      obtain ⟨-, hh, hf⟩ := hs fr (by simp)
      have hdec : ∃ r, Entry.decode (Send.encodeAll scfg (fr :: rest) ++ [0]) = .ok (some fr.item.entry) r := by
        show ∃ r, Entry.decode (fr.encode scfg ++ Send.encodeAll scfg rest ++ [0]) = _
        rw [Sent.encode, hh, List.append_assoc, List.append_assoc]
        exact ⟨_, Entry.decode_encode hf _⟩
      obtain ⟨r, hdec⟩ := hdec
      rw [hdec]
      intro hmore
      cases hmore
  · intro j st hj hk
    rw [hj] at hpc
    obtain ⟨hjob, -⟩ := hpc
    rw [hjob.got, List.append_assoc] at hw
    obtain ⟨first, rest, rfl, -, hwire⟩ := sent_rest hd hs hn.log.whole hw
    have hdec := Entry.decode_encode hjob.framed (fl.log.part ++ (fl.log.trailer ++ fl.wire))
    have hleft : (Recv.frameOf j fl.log).encode ++ fl.wire = j.entry.encode ++ (fl.log.part ++ (fl.log.trailer ++ fl.wire)) := by
      simp [Recv.Frame.encode, Recv.frameOf]
    rw [← hleft, hwire] at hdec
    cases rest with
    | nil =>
      have hend : Entry.decode (Send.encodeAll scfg [] ++ [0]) = .ok none [] := Entry.decode_terminator []
      rw [hend] at hdec
      cases hdec
    | cons fr rest =>
      obtain ⟨hp, hh, hf⟩ := hs fr (by simp)
      have hright : Send.encodeAll scfg (fr :: rest) ++ [0] =
          fr.item.entry.encode ++ (fr.payload ++ (Send.trailerOf scfg fr.item.entry fr.payload ++ (Send.encodeAll scfg rest ++ [0]))) := by
        show fr.encode scfg ++ Send.encodeAll scfg rest ++ [0] = _
        simp [Sent.encode, hh]
      rw [hright, Entry.decode_encode hf] at hdec
      injection hdec with hentry hrest
      have hentry : fr.item.entry = j.entry := Option.some.inj hentry
      -- as many bytes as the entry announces, and a digest
      have hlen := congrArg List.length hrest
      have hpay : fr.payload.length = j.entry.size.toNat := by
        rw [show fr.payload.length = Send.payloadLen fr.item.entry from hp, payloadLen_eq hf, hentry, if_neg hk]
      have htr : (Send.trailerOf scfg fr.item.entry fr.payload).length = if rcfg.verify then DIGEST_LEN else 0 := by
        unfold Send.trailerOf
        rw [hentry, hd.verify]
        have hne := hjob.framed.kind
        cases hkind : j.entry.kind with
        | file | symlink =>
          dsimp only
          split
          · exact Digest.length _
          · rfl
        | dir => exact absurd hkind hk
        | end_ => exact absurd hkind hne
      simp only [List.length_append, hpay, htr] at hlen
      omega

/-! ## Going on -/

/-- Nothing fails in it. -/
def Act.calm : Act → Prop
  | .sendMain c => c.fault = none
  | .lane _ (.read c) | .lane _ (.sock c) => c.fault = none
  | .net _ c | .hash _ c | .writer _ c | .recvMain c => c.fault = none
  | _ => True

/-- A step of a thread, bytes that arrive, or an end that has returned and lets go of a connection on which all it wrote
has arrived. A connection that breaks before is none of these. -/
def Act.onward (x : Setup) (s : State) : Act → Prop
  | .deliver i count => next (s.snd.sent i) (s.arrived i) count ≠ []
  | .reply count => next s.rcv.reply s.back count ≠ []
  | .cut i keep => s.snd.main.over ∧ i < x.flows ∧ s.arrived i = (s.snd.sent i).length ∧ (s.rcv.flow i).eof = false ∧
      (s.rcv.flow i).wire.length ≤ keep
  | .cutReply => s.rcv.main.over ∧ s.back = s.rcv.reply.length ∧ s.snd.eof = false
  | _ => True

/-- The session can go on without a failure. -/
def GoesOn (x : Setup) (s : State) : Prop := ∃ a s', a.onward x s ∧ a.calm ∧ step x s a = some s'

/-- Both ends have returned. -/
def Ended (s : State) : Prop := s.snd.main.over ∧ s.rcv.main.over

theorem next_one {stream : Bytes} {n : Nat} (h : n < stream.length) : next stream n 1 ≠ [] := by
  intro hn
  have hlen := congrArg List.length hn
  simp only [next, List.length_take, List.length_drop, List.length_nil] at hlen
  omega

/-- While an open connection has bytes under way, they can arrive. -/
theorem deliver_goes {i : Nat} (he : (s.rcv.flow i).eof = false) (hp : s.arrived i < (s.snd.sent i).length) : GoesOn x s := by
  obtain ⟨rcv, hs⟩ : ∃ rcv, Recv.step x.receiver s.rcv (.deliver i (next (s.snd.sent i) (s.arrived i) 1)) = some rcv :=
    ⟨_, if_neg (by simp [he])⟩
  have hst : ∃ s', step x s (.deliver i 1) = some s' := ⟨_, congrArg (Option.map _) hs⟩
  obtain ⟨s', hst⟩ := hst
  exact ⟨.deliver i 1, s', next_one hp, trivial, hst⟩

theorem reply_goes (he : s.snd.eof = false) (hp : s.back < s.rcv.reply.length) : GoesOn x s := by
  obtain ⟨snd, hs⟩ : ∃ snd, Send.sessionStep x.sender s.snd (.hear (next s.rcv.reply s.back 1)) = some snd :=
    ⟨_, if_neg (by simp [he])⟩
  have hst : ∃ s', step x s (.reply 1) = some s' := ⟨_, congrArg (Option.map _) hs⟩
  obtain ⟨s', hst⟩ := hst
  exact ⟨.reply 1, s', next_one hp, trivial, hst⟩

theorem send_goes {a : Send.SessionAct} {b : Act} {snd : Send.State} (hs : Send.sessionStep x.sender s.snd a = some snd)
    (hb : step x s b = s.send x a) (ho : b.onward x s) (hc : b.calm) : GoesOn x s := by
  refine ⟨b, { s with snd }, ho, hc, ?_⟩
  rw [hb, State.send, hs]
  rfl

theorem recv_goes {a : Recv.Act} {b : Act} {rcv : Recv.State} (hs : Recv.step x.receiver s.rcv a = some rcv)
    (hb : step x s b = s.recv x a) (ho : b.onward x s) (hc : b.calm) : GoesOn x s := by
  refine ⟨b, { s with rcv }, ho, hc, ?_⟩
  rw [hb, State.recv, hs]
  rfl

theorem lane_goes {i : Nat} (hi : i < x.flows) (hsp : s.snd.spawned = true) (h : Send.Moves x.sender.cfg (s.snd.lane i)) :
    GoesOn x s := by
  obtain ⟨c, hc, hmv⟩ := h
  have hlane : ∀ {a : Send.Act}, (Send.step x.sender.cfg (s.snd.lane i) a).isSome → (Act.lane i a).calm → GoesOn x s := by
    intro a ha hcalm
    obtain ⟨ln, hs⟩ := Option.isSome_iff_exists.1 ha
    have hst : Send.sessionStep x.sender s.snd (.lane i a) = some { s.snd with lane := Function.update s.snd.lane i ln } :=
      (if_pos ⟨hsp, hi⟩).trans (by rw [hs]; rfl)
    exact send_goes (b := .lane i a) hst rfl trivial hcalm
  rcases hmv with hmv | hmv | hmv
  · exact hlane hmv hc
  · exact hlane hmv trivial
  · exact hlane hmv hc

theorem flow_goes {i : Nat} (h : Recv.Moves x.receiver s.rcv i) : GoesOn x s := by
  obtain ⟨c, hc, hmv | hmv | hmv⟩ := h
  · obtain ⟨rcv, hs⟩ := Option.isSome_iff_exists.1 hmv
    exact recv_goes (b := .net i c) hs rfl trivial hc
  · obtain ⟨rcv, hs⟩ := Option.isSome_iff_exists.1 hmv
    exact recv_goes (b := .hash i c) hs rfl trivial hc
  · obtain ⟨rcv, hs⟩ := Option.isSome_iff_exists.1 hmv
    exact recv_goes (b := .writer i c) hs rfl trivial hc

/-- What the receiver waits for can come, or all of it has come and the connection is still held. -/
theorem receiver_goes (hd : 1 ≤ x.recvDepth) (h : Reachable x fs0 s) (hm : ¬ s.rcv.main.over) : GoesOn x s ∨
    ∃ i < x.flows ⊔ 1, (s.rcv.flow i).eof = false ∧ s.arrived i = (s.snd.sent i).length ∧
      ((i = 0 ∧ s.rcv.main = .manifest ∧ Entry.decode (s.rcv.flow 0).wire = .more) ∨
        (i < x.flows ∧ s.rcv.main = .running ∧ (s.rcv.flow i).net.reads ∧ (s.rcv.flow i).netStep x.receiver Recv.plain s.rcv.sh = none)) := by
  have hbound := (linked_inv h).wired.bound
  have hcome : ∀ i, (s.rcv.flow i).eof = false → GoesOn x s ∨ s.arrived i = (s.snd.sent i).length := by
    intro i he
    have hi := hbound i
    by_cases hlt : s.arrived i < (s.snd.sent i).length
    · exact .inl (deliver_goes he hlt)
    · exact .inr (by omega)
  rcases Recv.receiver_waits hd (receiver_reachable h) hm with ⟨rcv, hs⟩ | ⟨i, -, hmv⟩ | ⟨hk, he, hdec⟩ | ⟨i, hi, hk, he, hr, hs⟩
  · exact .inl (recv_goes (a := .main Recv.plain) (b := .recvMain Recv.plain) hs rfl trivial rfl)
  · exact .inl (flow_goes hmv)
  · rcases hcome 0 he with hg | harr
    · exact .inl hg
    · exact .inr ⟨0, by omega, he, harr, .inl ⟨rfl, hk, hdec⟩⟩
  · have hi : i < x.flows := hi
    rcases hcome i he with hg | harr
    · exact .inl hg
    · exact .inr ⟨i, by omega, he, harr, .inr ⟨hi, hk, hr, hs⟩⟩

/-- What the receiver has of a connection on which everything has arrived. -/
theorem stream_whole (h : Reachable x fs0 s) {i : Nat} (he : (s.rcv.flow i).eof = false) (harr : s.arrived i = (s.snd.sent i).length) :
    s.rcv.stream i = s.snd.sent i := by
  rw [(linked_inv h).wired.whole i he, harr, List.take_length]

/-- A receiver that has all of the manifest does not wait for more of it. -/
theorem manifest_enough (hv : Visited x.items) (h : Reachable x fs0 s) (hw : s.snd.wrote = manifest x.items)
    (hm : s.rcv.main = .manifest) (he : (s.rcv.flow 0).eof = false) (harr : s.arrived 0 = (s.snd.sent 0).length) :
    Entry.decode (s.rcv.flow 0).wire ≠ .more := by
  have hstream := stream_whole h he harr
  have htally := Recv.tally_inv (receiver_reachable h)
  have hphase := Recv.phase_ok (receiver_reachable h)
  rw [hm] at htally hphase
  obtain ⟨⟨es, hes, hgot⟩, -⟩ := htally
  obtain ⟨wire, eof, hflow⟩ := hphase.flow 0
  unfold Recv.State.stream Send.State.sent at hstream
  rw [if_pos rfl, if_pos rfl, hgot, hw, sender_manifest hv, List.append_assoc, hflow] at hstream
  obtain ⟨rest, hrest, hwire⟩ := Recv.encodings_split hes.framed hv.walked.framed hstream
  have hwire : (s.rcv.flow 0).wire = Recv.encodings rest ++ (Entry.terminator ++ (s.snd.lane 0).wrote) := by
    rw [hflow]
    exact hwire
  rw [hwire]
  cases rest with
  | nil =>
    have hend : Entry.decode (Recv.encodings [] ++ (Entry.terminator ++ (s.snd.lane 0).wrote)) = .ok none (s.snd.lane 0).wrote :=
      Entry.decode_terminator _
    rw [hend]
    intro hmore
    cases hmore
  | cons e rest =>
    have hmem : e ∈ x.items.map Item.entry := by
      rw [hrest]
      simp
    have hdec : Entry.decode (Recv.encodings (e :: rest) ++ (Entry.terminator ++ (s.snd.lane 0).wrote)) =
        .ok (some e) (Recv.encodings rest ++ (Entry.terminator ++ (s.snd.lane 0).wrote)) := by
      show Entry.decode (e.encode ++ Recv.encodings rest ++ _) = _
      rw [List.append_assoc]
      exact Entry.decode_encode (hv.walked.framed e hmem) _
    rw [hdec]
    intro hmore
    cases hmore

/-- A flow that has all of what a lane that returned Ok wrote does not wait for more of it. -/
theorem share_enough (hv : Visited x.items) (hf : 1 ≤ x.flows) (h : Reachable x fs0 s)
    (hdealt : Send.Dealt x.sender s.snd.wrote s.snd.have_ s.snd.totals s.snd.lane) {i : Nat}
    (hsent : (s.snd.lane i).sock = .left (.ok ())) (hm : s.rcv.main = .running) (he : (s.rcv.flow i).eof = false)
    (harr : s.arrived i = (s.snd.sent i).length) (hr : (s.rcv.flow i).net.reads) :
    ((s.rcv.flow i).netStep x.receiver Recv.plain s.rcv.sh).isSome := by
  have hstream := stream_whole h he harr
  have htally := Recv.tally_inv (receiver_reachable h)
  rw [hm] at htally
  obtain ⟨⟨es, htal, hgot⟩, -⟩ := htally
  have hes := listing_whole hv h hdealt.wrote htal.framed hgot
  obtain ⟨-, ⟨frs, hfr, hwrote⟩, -⟩ := Send.lane_framed (hdealt.lanes i)
  rw [if_pos hsent] at hwrote
  unfold Recv.State.stream Send.State.sent at hstream
  rw [hgot, hes, ← sender_manifest hv, hdealt.wrote, hwrote] at hstream
  have hsame : SameDigest x.sender.cfg x.receiver := ⟨rfl, rfl⟩
  refine flow_enough hsame ?_ (Recv.flow_inv (receiver_reachable h) i).net (List.append_cancel_left hstream) hr
  intro fr hfr'
  have hmem : fr.item ∈ x.sender.share s.snd.have_ i := hfr.items ▸ List.mem_map_of_mem hfr'
  exact ⟨hfr.whole fr hfr', hv.walked _ (mem_share (show 0 < x.sender.flows from hf) hmem)⟩

section Going

variable (hv : Visited x.items) (hd : 1 ≤ x.sendDepth) (hd' : 1 ≤ x.recvDepth) (hf : 1 ≤ x.flows) (h : Reachable x fs0 s)

include hd' hf h

/-- Once the sender has returned, the receiver goes on or finds that nothing more comes. -/
theorem receiver_live (hs : s.snd.main.over) (hr : ¬ s.rcv.main.over) : GoesOn x s := by
  rcases receiver_goes hd' h hr with hg | ⟨i, hi, he, harr, -⟩
  · exact hg
  · exact ⟨.cut i (s.rcv.flow i).wire.length, _, ⟨hs, by omega, harr, he, le_rfl⟩, trivial, rfl⟩

include hv hd

/-- Until the sender has returned, one of the two ends goes on or is brought what it waits for. -/
theorem sender_live (hs : ¬ s.snd.main.over) : GoesOn x s := by
  have hok := Send.session_inv (sender_reachable h)
  have hwait : GoesOn x s ∨ s.snd.eof = false ∧ s.snd.wrote = manifest x.items ∧
      (s.snd.main = .awaiting ∧ readBitmap (Send.offered x.items) s.snd.heard = .more ∨
        Send.Dealt x.sender s.snd.wrote s.snd.have_ s.snd.totals s.snd.lane ∧ Send.AllSent x.sender s.snd.lane) := by
    rcases Send.sender_waits hd (sender_reachable h) hs with ⟨snd, hst⟩ | ⟨i, hi, hsp, hmv⟩ | ⟨hm, he, hmore⟩ | ⟨hm, he, -⟩
    · exact .inl (send_goes (a := .main Send.plain) (b := .sendMain Send.plain) hst rfl trivial rfl)
    · exact .inl (lane_goes hi hsp hmv)
    · rw [hm] at hok
      exact .inr ⟨he, hok.1, .inl ⟨hm, hmore⟩⟩
    · rw [hm] at hok
      exact .inr ⟨he, hok.1.wrote, .inr ⟨hok.1, hok.2.1⟩⟩
  rcases hwait with hg | ⟨he, hw, hpc⟩
  · exact hg
  have hback := (linked_inv h).back
  by_cases hlt : s.back < s.rcv.reply.length
  · exact reply_goes he hlt
  have hall : s.back = s.rcv.reply.length := by omega
  by_cases hr : s.rcv.main.over
  · exact ⟨.cutReply, _, ⟨hr, hall, he⟩, trivial, rfl⟩
  rcases receiver_goes hd' h hr with hg | ⟨i, -, hopen, harr, ⟨rfl, hm, hmore⟩ | ⟨hi, hm, hreads, hblk⟩⟩
  · exact hg
  · exact absurd hmore (manifest_enough hv h hw hm hopen harr)
  · rcases hpc with ⟨hm', hmore⟩ | ⟨hdealt, hsent⟩
    · -- the receiver has answered, and all of the answer has come
      have htally := Recv.tally_inv (receiver_reachable h)
      rw [hm] at htally
      obtain ⟨hans, hq⟩ := htally
      have hrep := (linked_inv h).replied
      rw [hm'] at hrep
      have hheard : s.snd.heard = s.rcv.reply.take s.back := hrep
      have hread := readBitmap_encodeBitmap s.rcv.bits []
      rw [List.append_nil, answered_items hv h hw hans, ← hq, ← List.take_length (l := s.rcv.reply), ← hall, ← hheard, hmore] at hread
      cases hread
    · have hgo := share_enough hv hf h hdealt (hsent i hi) hm hopen harr hreads
      rw [hblk] at hgo
      cases hgo

end Going

/-- A session does not hang: whatever has failed and wherever a connection has broken, until both ends have returned
some thread can go on without a failure, bytes that are under way can arrive, or an end that has returned lets go of
a connection that has nothing under way. -/
theorem session_live (hv : Visited x.items) (hd : 1 ≤ x.sendDepth) (hd' : 1 ≤ x.recvDepth) (hf : 1 ≤ x.flows)
    (h : Reachable x fs0 s) (hn : ¬ Ended s) : GoesOn x s := by
  by_cases hs : s.snd.main.over
  · exact receiver_live hd' hf h hs fun hr => hn ⟨hs, hr⟩
  · exact sender_live hv hd hd' hf h hs

theorem session_live_awaiting : ∃ s, run (step pair) (.init pair hasT) (agreeing.take 2) = some s ∧ s.snd.main = .awaiting ∧ GoesOn pair s := by
  have hrun : ((run (step pair) (.init pair hasT) (agreeing.take 2)).any fun s => decide (s.snd.main = .awaiting)) = true := by
    decide +kernel
  obtain ⟨s, hs, hv⟩ := (Option.any_eq_true _ _).1 hrun
  have hm := of_decide_eq_true hv
  refine ⟨s, hs, hm, session_live three_visited (by decide) (by decide) (by decide) (.of_run hs : Reachable pair hasT s) ?_⟩
  rintro ⟨hover, -⟩
  rw [hm] at hover
  exact hover

end Thunderflash.Session
