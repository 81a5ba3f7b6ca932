/-
A flow that is fed a stream of whole frames, cut into whatever pieces, while its file-system
operations succeed: it meets no other error, never waits once everything is there, and ends with
every byte read and every frame completed.
-/
import Thunderflash.Recv.Accounts
import Thunderflash.Recv.Routes
import Thunderflash.Recv.Work

namespace Thunderflash.Recv

open Codec Posix Lts

variable {cfg : Cfg} {c : Choice} {sh sh' : Shared} {fl fl' : Flow} {fs0 : Fs} {s s' : State} {j : Job}
  {frames : List Frame} {missing later stream : Bytes}

/-! ## Where the reader is in the stream -/

/-- The stream of these frames. -/
def streamOf (frames : List Frame) : Bytes := encodeAll frames ++ Entry.terminator

theorem decode_streamOf_cons {fr : Frame} (h : fr.Whole cfg) (rest : List Frame) (later : Bytes) :
    Entry.decode (streamOf (fr :: rest) ++ later) = .ok (some fr.entry) (fr.payload ++ (fr.trailer ++ (streamOf rest ++ later))) := by
  have he : streamOf (fr :: rest) ++ later = fr.entry.encode ++ (fr.payload ++ (fr.trailer ++ (streamOf rest ++ later))) := by
    simp [streamOf, Frame.encode]
  rw [he]
  exact Entry.decode_encode h.framed _

theorem decode_streamOf_nil (later : Bytes) : Entry.decode (streamOf [] ++ later) = .ok none later :=
  Entry.decode_terminator later

/-- What follows some frames in the stream is the stream of the others. -/
theorem streamOf_split : ∀ {done frames : List Frame} {x : Bytes}, (∀ fr ∈ done, fr.Whole cfg) → (∀ fr ∈ frames, fr.Whole cfg) →
    encodeAll done ++ x = streamOf frames ++ later → ∃ rest, frames = done ++ rest ∧ x = streamOf rest ++ later
  | [], frames, x, _, _, h => ⟨frames, rfl, h⟩
  | fr :: done, [], x, hd, _, h => by
    exfalso
    have hdec : Entry.decode (encodeAll (fr :: done) ++ x) = .ok (some fr.entry) (fr.payload ++ fr.trailer ++ (encodeAll done ++ x)) := by
      rw [encodeAll_cons, Frame.encode, List.append_assoc, List.append_assoc]
      exact Entry.decode_encode (hd fr (by simp)).framed _
    rw [h, decode_streamOf_nil] at hdec
    cases hdec
  | fr :: done, fr' :: frames, x, hd, hf, h => by
    have he : fr.encode ++ (encodeAll done ++ x) = fr'.encode ++ (streamOf frames ++ later) := by
      rw [← List.append_assoc, ← encodeAll_cons, h]
      simp [streamOf]
    obtain ⟨rfl, htail⟩ := (hd fr (by simp)).inj (hf fr' (by simp)) he
    obtain ⟨rest, rfl, hx⟩ := streamOf_split (fun y hy => hd y (by simp [hy])) (fun y hy => hf y (by simp [hy])) htail
    exact ⟨rest, rfl, hx⟩

/-- The flow has been fed a first part of the stream, and all of it if nothing more comes. -/
structure Feeds (stream : Bytes) (fl : Flow) : Prop where
  part : fl.log.got ++ fl.wire <+: stream
  whole : fl.eof = true → fl.log.got ++ fl.wire = stream

theorem Frame.Whole.digest_length {fr : Frame} (h : fr.Whole cfg) (hv : cfg.verify = true) (hk : fr.entry.kind ≠ .dir) :
    fr.trailer.length = DIGEST_LEN := by
  rw [h.trailer, if_neg hk, digestOf, if_pos hv]
  exact Digest.length _

/-- The frames are whole, and the targets among them text. -/
structure Sound (cfg : Cfg) (frames : List Frame) : Prop where
  whole : ∀ fr ∈ frames, fr.Whole cfg
  text : ∀ fr ∈ frames, fr.entry.kind = .symlink → utf8 fr.payload = true

/-- Between two frames, what is to be read is the stream of the frames to come. -/
theorem Sound.between (hf : Sound cfg frames) (hn : NetInv cfg fl) (hg : fl.log.got = encodeAll fl.log.done)
    (hs : fl.log.got ++ fl.wire ++ missing = streamOf frames ++ later) :
    ∃ rest, frames = fl.log.done ++ rest ∧ fl.wire ++ missing = streamOf rest ++ later := by
  rw [hg, List.append_assoc] at hs
  exact streamOf_split hn.log.whole hf.whole hs

/-- Inside a frame, what is to be read of it comes next. -/
theorem Sound.inside {st : Stage} (hf : Sound cfg frames) (hn : NetInv cfg fl) (hpc : fl.net = .at j st)
    (hs : fl.log.got ++ fl.wire ++ missing = streamOf frames ++ later) :
    ∃ fr rest, frames = fl.log.done ++ fr :: rest ∧ fr.entry = j.entry ∧ fr.Whole cfg ∧
      (j.entry.kind = .symlink → utf8 fr.payload = true) ∧
      fl.log.part ++ (fl.log.trailer ++ (fl.wire ++ missing)) = fr.payload ++ (fr.trailer ++ (streamOf rest ++ later)) := by
  have hok := hn.pc
  rw [hpc] at hok
  obtain ⟨hj, -⟩ := hok
  rw [hj.got, List.append_assoc, List.append_assoc] at hs
  obtain ⟨rest, rfl, hx⟩ := streamOf_split hn.log.whole hf.whole hs
  have hx : j.entry.encode ++ (fl.log.part ++ (fl.log.trailer ++ (fl.wire ++ missing))) = streamOf rest ++ later := by
    rw [← hx]
    simp [Frame.encode, frameOf]
  have hdec := Entry.decode_encode hj.framed (fl.log.part ++ (fl.log.trailer ++ (fl.wire ++ missing)))
  rw [hx] at hdec
  cases rest with
  | nil =>
    rw [decode_streamOf_nil] at hdec
    cases hdec
  | cons fr rest =>
    have hw := hf.whole fr (by simp)
    rw [decode_streamOf_cons hw] at hdec
    injection hdec with he hrest
    have he : fr.entry = j.entry := Option.some.inj he
    exact ⟨fr, rest, rfl, he, hw, fun hk => hf.text fr (by simp) (he ▸ hk), hrest.symm⟩

/-! ## What can fail -/

/-- A file-system operation failed. -/
def Err.fromCall : Err → Prop
  | .os _ | .descend .. => True
  | _ => False

/-- A file-system operation failed, or a target of these frames has a NUL. -/
def Err.excused (frames : List Frame) : Err → Prop
  | .nul => ∃ fr ∈ frames, fr.entry.kind = .symlink ∧ 0 ∈ fr.payload
  | e => e.fromCall

/-- The net thread has given up on these frames, or is about to. -/
def NetPc.broken (frames : List Frame) : NetPc → Prop
  | .finished (.error e) => ¬ e.excused frames
  | .at _ (.dropBegin _) => True
  | _ => False

/-- While the net thread is at work and the writer has met no error, nobody has dropped a receiver. -/
theorem writer_open (hp : PipeInv cfg fl) (hnf : ¬ fl.netFinished) (hw : ¬ fl.writer.failed) : ¬ fl.writerClosed := by
  intro hc
  unfold Flow.writerClosed at hc
  split at hc
  · rename_i l r hwr
    cases r with
    | error e => exact hw (by rw [hwr]; trivial)
    | ok u => exact hnf (hp.ended (by rw [hwr]; trivial)).1
  · exact hc

theorem hash_open (hp : PipeInv cfg fl) (hnf : ¬ fl.netFinished) (hw : ¬ fl.writer.failed) (hv : cfg.verify = true) : ¬ fl.hashClosed :=
  fun hc => hnf ((hp.closed hv hc).2 (writer_open hp hnf hw)).1

theorem sink_open (hp : PipeInv cfg fl) (hnf : ¬ fl.netFinished) (hw : ¬ fl.writer.failed) : ¬ fl.sinkClosed cfg := by
  intro hc
  unfold Flow.sinkClosed at hc
  split at hc
  · rename_i hv hh
    exact hash_open hp hnf hw hv (by simp [Flow.hashClosed, hh])
  · rename_i hwr
    exact writer_open hp hnf hw (by simp [Flow.writerClosed, hwr])
  · exact hc

theorem dispatch_sound (hk : j.entry.kind ≠ .end_) (fl : Flow) : ¬ (fl.dispatch j).net.broken frames := by
  unfold Flow.dispatch
  split
  · exact id
  · exact id
  · exact id
  · rename_i h; exact absurd h hk

theorem arrive_sound (hk : j.entry.kind ≠ .end_) (fl : Flow) : ¬ (fl.arrive j).net.broken frames := by
  unfold Flow.arrive
  exact dispatch_sound hk _

theorem pump_sound (n : Nat) (fl : Flow) : ¬ (fl.pump cfg j n).net.broken frames := by
  unfold Flow.pump
  split
  · exact id
  · split <;> exact id

theorem made_sound (fl : Flow) : ¬ (fl.made cfg j).net.broken frames := by
  unfold Flow.made
  split <;> exact id

theorem send_sound {m : Msg} {next gone : Flow → Flow} (ho : ¬ fl.sinkClosed cfg) (hs : fl.send cfg m next gone = some fl')
    (hn : ∀ fl : Flow, ¬ (next fl).net.broken frames) : ¬ fl'.net.broken frames := by
  rcases Flow.send_some hs with ⟨hc, -⟩ | ⟨-, -, rfl⟩
  · exact absurd hc ho
  · exact hn _

/-- What an exact read of what comes next gives. -/
theorem readExact_next {n : Nat} {r : Except Err Bytes} {a later : Bytes} (hf : c.fault = none) (hlen : a.length = n)
    (hs : fl.wire ++ missing = a ++ later) (he : fl.eof = true → missing = []) (hr : fl.readExact c n = some r) : r = .ok a := by
  unfold Flow.readExact at hr
  rw [hf] at hr
  dsimp only at hr
  split at hr
  · rename_i hle
    cases hr
    have htake : (fl.wire ++ missing).take n = fl.wire.take n := List.take_append_of_le_length hle
    rw [← htake, hs, ← hlen, List.take_left]
  · rename_i hgt
    split at hr <;> cases hr
    rename_i heof
    have hl := congrArg List.length hs
    rw [he heof, List.append_nil, List.length_append] at hl
    omega

/-- Fed this stream, the net thread gives up on nothing but a failed operation. -/
theorem netStep_sound (hf : Sound cfg frames) (hn : NetInv cfg fl) (hp : PipeInv cfg fl) (hfeed : Feeds (streamOf frames ++ later) fl)
    (hw : ¬ fl.writer.failed) (hb : ¬ fl.net.broken frames) (hfault : c.fault = none) (hs : fl.netStep cfg c sh = some (sh', fl')) :
    ¬ fl'.net.broken frames := by
  have hnf : ¬ fl.netFinished := (netStep_cases hs).1
  obtain ⟨missing, hmiss⟩ := hfeed.part
  have heof : fl.eof = true → missing = [] := fun he => by
    rw [hfeed.whole he] at hmiss
    exact List.append_right_eq_self.1 hmiss
  have hopen := sink_open hp hnf hw
  have hpc := hn.pc
  unfold Flow.netStep at hs
  split at hs
  · rename_i sys hreq
    obtain rfl := congrArg Prod.snd (Option.some.inj hs)
    have hkind : ∀ {j : Job} {st : Stage}, fl.net = .at j st → j.entry.kind ≠ .end_ := by
      intro j st hj
      rw [hj] at hpc
      exact hpc.1.framed.kind
    unfold Flow.netResume
    split
    case h_1 => split <;> simp [NetPc.broken, Flow.fail, Err.excused, Err.fromCall]
    case h_2 => split <;> simp [NetPc.broken, Flow.goto, Flow.fail, Err.excused, Err.fromCall]
    case h_3 hj =>
      split
      · have hk := hkind hj
        apply arrive_sound
        exact hk
      · exact id
      · simp [NetPc.broken, Flow.fail, Err.excused, Err.fromCall]
    case h_4 => split <;> simp [NetPc.broken, Flow.goto, Flow.fail, Err.excused, Err.fromCall]
    case h_5 => exact made_sound _
    case h_6 => exact id
    case h_7 => split <;> simp [NetPc.broken, Flow.goto, Flow.fail, Err.excused, Err.fromCall]
    case h_8 => exact made_sound _
    case h_9 => split <;> simp [NetPc.broken, Flow.complete, Flow.fail, Err.excused, Err.fromCall]
    case h_10 => split <;> simp [NetPc.broken, Flow.goto, Flow.fail, Err.excused, Err.fromCall]
    case h_11 => split <;> simp [NetPc.broken, Flow.goto, Flow.fail, Err.excused, Err.fromCall]
    case h_12 => split <;> simp [NetPc.broken, Flow.goto, Flow.fail, Err.excused, Err.fromCall]
    case h_13 hj => exact absurd (by rw [hj]; trivial) hb
    case h_14 => exact hb
  · unfold Flow.netLocal at hs
    split at hs
    case h_1 =>
      rw [hfault] at hs
      cases hs
      show ¬ NetPc.broken frames (if cfg.durable then .registerRoot else .decode)
      split <;> exact id
    case h_2 hdec =>
      rw [hdec] at hpc
      obtain ⟨rest, rfl, hwire⟩ := hf.between hn hpc.2.2 hmiss
      rw [hfault] at hs
      split at hs
      · rename_i hx; cases hx
      · rename_i hd
        split at hs <;> cases hs
        rename_i he
        exfalso
        rw [heof he, List.append_nil] at hwire
        rw [hwire] at hd
        cases rest with
        | nil => rw [decode_streamOf_nil] at hd; cases hd
        | cons fr rest => rw [decode_streamOf_cons (hf.whole fr (by simp))] at hd; cases hd
      · rename_i e hd
        exfalso
        have hd := Entry.stable_decode.fail hd missing
        rw [hwire] at hd
        cases rest with
        | nil => rw [decode_streamOf_nil] at hd; cases hd
        | cons fr rest => rw [decode_streamOf_cons (hf.whole fr (by simp))] at hd; cases hd
      · cases hs; exact id
      · rename_i e tail _ hd
        cases hs
        have hd := Entry.stable_decode.ok hd missing
        rw [hwire] at hd
        cases rest with
        | nil => rw [decode_streamOf_nil] at hd; cases hd
        | cons fr rest =>
          have hwhole := hf.whole fr (by simp)
          rw [decode_streamOf_cons hwhole] at hd
          injection hd with he
          obtain rfl : fr.entry = e := Option.some.inj he
          unfold Flow.start
          rw [hwhole.path]
          dsimp only
          split
          · split
            · exact dispatch_sound hwhole.framed.kind _
            · exact id
          · exact id
    case h_3 j hj =>
      rw [hj] at hpc
      rw [hfault] at hs
      split at hs
      · rename_i hx; cases hx
      · cases hs; exact @arrive_sound { j with dir := cfg.root } frames hpc.1.framed.kind _
      · cases hs; exact id
    case h_4 j hj =>
      obtain ⟨fr, rest, -, he, hwhole, htext, hnext⟩ := hf.inside hn hj hmiss
      rw [hj] at hpc
      obtain ⟨-, ⟨⟨-, hpart, htr⟩, hk⟩⟩ := hpc
      rw [hpart, htr] at hnext
      obtain ⟨r, hr, hs⟩ := Option.map_eq_some_iff.1 hs
      have hlen : fr.payload.length = j.entry.size.toNat := by rw [hwhole.payload, he, if_neg (by simp [hk])]
      obtain rfl := readExact_next hfault hlen hnext heof hr
      cases hs
      dsimp only
      split
      · exact id
      · unfold Flow.linkText
        rw [if_pos (htext hk)]
        exact id
    case h_5 j target hj =>
      obtain ⟨fr, rest, -, he, hwhole, htext, hnext⟩ := hf.inside hn hj hmiss
      rw [hj] at hpc
      obtain ⟨-, -, hk, hv, hpart, hlen, htr⟩ := hpc
      rw [hpart, htr] at hnext
      have hlen : target.length = fr.payload.length := by rw [hlen, hwhole.payload, he, if_neg (by simp [hk])]
      obtain ⟨rfl, hrest⟩ := List.append_inj hnext hlen
      have htrail : fr.trailer = (cfg.blake3 fr.payload).bytes := by
        rw [hwhole.trailer, he, if_neg (by simp [hk]), digestOf, if_pos hv]
      obtain ⟨r, hr, hs⟩ := Option.map_eq_some_iff.1 hs
      have hlen : fr.trailer.length = DIGEST_LEN := by rw [htrail]; exact Digest.length _
      obtain rfl := readExact_next hfault hlen hrest heof hr
      cases hs
      dsimp only
      rw [if_pos htrail]
      unfold Flow.linkText
      rw [if_pos (htext hk)]
      exact id
    case h_6 j target hj =>
      obtain ⟨fr, rest, hframes, he, hwhole, -, hnext⟩ := hf.inside hn hj hmiss
      rw [hj] at hpc
      obtain ⟨-, -, hk, hpart, -, hwf⟩ := hpc
      split at hs <;> cases hs
      rename_i hnul
      have hpay : fl.log.part.length = fr.payload.length := by
        rw [hwhole.payload, he, show fl.log.part = (frameOf j fl.log).payload from rfl, hwf.payload]
        rfl
      obtain ⟨hpart', -⟩ := List.append_inj hnext hpay
      rw [← hpart, hpart'] at hnul
      have hexcused : Err.excused frames .nul := ⟨fr, by rw [hframes]; simp, by rw [he]; exact hk, hnul⟩
      exact not_not_intro hexcused
    case h_7 =>
      obtain ⟨fl1, h1, hs⟩ := Option.map_eq_some_iff.1 hs
      cases hs
      exact send_sound hopen h1 fun _ => pump_sound _ _
    case h_8 =>
      split at hs
      · cases hs; exact id
      · split at hs
        · exact absurd ‹fl.writerClosed› (writer_open hp hnf hw)
        · cases hs
    case h_9 j remaining hj =>
      obtain ⟨fr, rest, -, he, hwhole, -, hnext⟩ := hf.inside hn hj hmiss
      rw [hj] at hpc
      obtain ⟨-, hk, hpos, hlen, -⟩ := hpc
      rw [hfault] at hs
      dsimp only at hs
      split at hs
      · cases hs; exact id
      · split at hs <;> cases hs
        rename_i hend
        exfalso
        have hl := congrArg List.length hnext
        have hpay : fr.payload.length = j.entry.size.toNat := by rw [hwhole.payload, he, if_neg (by simp [hk])]
        rw [hend.1, heof hend.2] at hl
        simp only [List.append_nil, List.length_append] at hl
        have htrail : fl.log.trailer = [] := by
          have hpc := hn.pc
          rw [hj] at hpc
          exact hpc.2.2.2.2.1
        rw [htrail, List.length_nil] at hl
        omega
    case h_10 =>
      obtain ⟨fl1, h1, hs⟩ := Option.map_eq_some_iff.1 hs
      cases hs
      exact send_sound hopen h1 fun _ => pump_sound _ _
    case h_11 =>
      obtain ⟨fl1, h1, hs⟩ := Option.map_eq_some_iff.1 hs
      cases hs
      exact send_sound hopen h1 fun _ => id
    case h_12 hj =>
      rw [hj] at hpc
      have hv : cfg.verify = true := hpc.2.2.1
      split at hs
      · cases hs; exact id
      · rename_i l _ hh
        exact absurd (by simp [Flow.hashClosed, hh]) (hash_open hp hnf hw hv)
      · cases hs
    case h_13 j actual hj =>
      obtain ⟨fr, rest, -, he, hwhole, -, hnext⟩ := hf.inside hn hj hmiss
      rw [hj] at hpc
      obtain ⟨-, hk, hv, hlen, htr, -, -, rfl⟩ := hpc
      rw [htr] at hnext
      have hlen : fl.log.part.length = fr.payload.length := by rw [hlen, hwhole.payload, he, if_neg (by simp [hk])]
      obtain ⟨hpart, hnext⟩ := List.append_inj hnext hlen
      have htrail : fr.trailer = (cfg.blake3 fl.log.part).bytes := by
        rw [hwhole.trailer, he, if_neg (by simp [hk]), digestOf, if_pos hv, hpart]
      obtain ⟨r, hr, hs⟩ := Option.map_eq_some_iff.1 hs
      have hlen : fr.trailer.length = DIGEST_LEN := by rw [htrail]; exact Digest.length _
      obtain rfl := readExact_next hfault hlen hnext heof hr
      cases hs
      dsimp only
      rw [if_pos htrail]
      exact id
    case h_14 =>
      obtain ⟨fl1, h1, hs⟩ := Option.map_eq_some_iff.1 hs
      cases hs
      exact send_sound hopen h1 fun _ => id
    case h_15 => cases hs

/-- Once everything has arrived the net thread does not wait for the socket. -/
theorem reads_go (hf : Sound cfg frames) (hn : NetInv cfg fl) (hs : fl.log.got ++ fl.wire = streamOf frames ++ later)
    (hr : fl.net.reads) : (fl.netStep cfg plain sh).isSome := by
  have hs : fl.log.got ++ fl.wire ++ [] = streamOf frames ++ later := by rw [List.append_nil, hs]
  have hpc := hn.pc
  have hexact : ∀ {n : Nat} {a rest : Bytes}, a.length = n → fl.wire = a ++ rest → (fl.readExact plain n).isSome := by
    intro n a rest hlen hw
    have hle : n ≤ fl.wire.length := by
      rw [hw, List.length_append]
      omega
    unfold Flow.readExact
    rw [show plain.fault = none from rfl]
    dsimp only
    rw [if_pos hle]
    rfl
  unfold Flow.netStep
  cases hj : fl.net with
  | decode =>
    rw [hj] at hpc
    obtain ⟨rest, rfl, hwire⟩ := hf.between hn hpc.2.2 hs
    rw [List.append_nil] at hwire
    simp only [Flow.netRequest, Flow.netLocal, hj]
    rw [hwire, show plain.fault = none from rfl]
    cases rest with
    | nil => rw [decode_streamOf_nil]; rfl
    | cons fr rest => rw [decode_streamOf_cons (hf.whole fr (by simp))]; rfl
  | «at» j st =>
    obtain ⟨fr, rest, -, he, hwhole, -, hnext⟩ := hf.inside hn hj hs
    rw [List.append_nil] at hnext
    rw [hj] at hpc hr
    obtain ⟨-, hst⟩ := hpc
    cases st with
    | linkRead =>
      obtain ⟨⟨-, hpart, htr⟩, hk⟩ := hst
      rw [hpart, htr] at hnext
      have hlen : fr.payload.length = j.entry.size.toNat := by rw [hwhole.payload, he, if_neg (by simp [hk])]
      simp only [Flow.netRequest, Flow.netLocal, hj, Option.isSome_map]
      exact hexact hlen hnext
    | linkDigest target =>
      obtain ⟨-, hk, hv, hpart, hlen, htr⟩ := hst
      rw [hpart, htr] at hnext
      have hlen : target.length = fr.payload.length := by rw [hlen, hwhole.payload, he, if_neg (by simp [hk])]
      obtain ⟨-, hwire⟩ := List.append_inj hnext hlen
      simp only [Flow.netRequest, Flow.netLocal, hj, Option.isSome_map]
      exact hexact (hwhole.digest_length hv (by rw [he]; simp [hk])) hwire
    | readBuf remaining =>
      obtain ⟨hk, hpos, hlen, htr, -⟩ := hst
      have hl := congrArg List.length hnext
      have hpay : fr.payload.length = j.entry.size.toNat := by rw [hwhole.payload, he, if_neg (by simp [hk])]
      rw [htr] at hl
      simp only [List.length_append, List.length_nil] at hl
      have hcount : 0 < plain.count ∧ plain.count ≤ min remaining CHUNK ∧ plain.count ≤ fl.wire.length :=
        ⟨Nat.one_pos, show 1 ≤ min remaining CHUNK by unfold CHUNK; omega, show 1 ≤ fl.wire.length by omega⟩
      simp only [Flow.netRequest, Flow.netLocal, hj]
      rw [show plain.fault = none from rfl]
      dsimp only
      rw [if_pos hcount]
      rfl
    | fileDigest actual =>
      obtain ⟨hk, hv, hlen, htr, -, -, -⟩ := hst
      rw [htr] at hnext
      have hlen : fl.log.part.length = fr.payload.length := by rw [hlen, hwhole.payload, he, if_neg (by simp [hk])]
      obtain ⟨-, hwire⟩ := List.append_inj hnext hlen
      simp only [Flow.netRequest, Flow.netLocal, hj, Option.isSome_map]
      exact hexact (hwhole.digest_length hv (by rw [he]; simp [hk])) hwire
    | _ => exact hr.elim
  | _ => rw [hj] at hr; exact hr.elim

/-! ## Runs -/

/-- No call of flow `i` fails, and what it is fed is this stream. -/
structure Smooth (stream : Bytes) (i : Nat) (_ : State) (a : Act) (s' : State) : Prop where
  fault : ∀ c, a = .net i c → c.fault = none
  net : ∀ e, (s'.flow i).net = .finished (.error e) → ¬ e.fromCall
  writer : ¬ (s'.flow i).writer.failed
  fed : s'.main = .running → Feeds stream (s'.flow i)

/-- Fed a stream that starts with these frames, the net thread gives up on nothing but a failed call. -/
theorem unbroken_inv {i : Nat} (hf : Sound cfg frames)
    (h : Reach (step cfg) (Smooth (streamOf frames ++ later) i) (.init cfg fs0) s) :
    ¬ (s.flow i).net.broken frames ∧ ¬ (s.flow i).writer.failed := by
  refine h.invariant (I := fun s => ¬ (s.flow i).net.broken frames ∧ ¬ (s.flow i).writer.failed) ⟨id, id⟩ ?_
  rintro s a s' hr ⟨hb, hw⟩ hst hok
  refine ⟨?_, hok.writer⟩
  have hinv := flow_inv hr i
  have hother : ∀ {k : Nat} {x : Shared × Flow}, (k = i → ¬ x.2.net.broken frames) → s' = s.put k x →
      ¬ (s'.flow i).net.broken frames := by
    rintro k x hx rfl
    by_cases hk : i = k
    · subst hk; rw [put_flow]; exact hx rfl
    · rw [put_flow_ne _ _ hk]; exact hb
  have haside : Aside s s' → ¬ (s'.flow i).net.broken frames := fun ha => by rw [ha.net]; exact hb
  cases a with
  | net k c =>
    obtain ⟨⟨sh', fl'⟩, hl, hs, he⟩ := threadStep_some hst
    refine hother (fun hk => ?_) he
    subst hk
    have hfed := hok.fed (by rw [he]; exact hl.1)
    rw [he, put_flow] at hfed
    have hledger := (FlowStep.net hs).ledger ⟨stated_inv hr k, rfl, rfl⟩
    have hfeed : Feeds (streamOf frames ++ later) (s.flow k) := by
      refine ⟨?_, fun heof => ?_⟩
      · rw [← hledger.read]; exact hfed.part
      · rw [← hledger.read]; exact hfed.whole (hledger.eof.trans heof)
    exact netStep_sound hf hinv.net hinv.pipe hfeed hw hb (hok.fault c rfl) hs
  | hash k c =>
    simp only [step] at hst
    split at hst
    · obtain ⟨⟨sh', fl'⟩, -, hs, he⟩ := threadStep_some hst
      refine hother (fun hk => ?_) he
      subst hk
      obtain ⟨_, _, _, _, _, _, rfl⟩ := hashStep_only hs
      exact hb
    · cases hst
  | writer k c =>
    obtain ⟨⟨sh', fl'⟩, -, hs, he⟩ := threadStep_some hst
    refine hother (fun hk => ?_) he
    subst hk
    obtain ⟨_, _, _, _, _, _, rfl⟩ := writerStep_only hs
    exact hb
  | main c => exact haside (mainStep_aside hst)
  | deliver k bytes =>
    simp only [step] at hst
    split at hst
    · cases hst
    · cases hst; exact haside (.wire s k _ _)
  | cut k keep => cases hst; exact haside (.wire s k _ _)

/-- In a run in which no call has failed, the flow has met no failed call yet. -/
theorem smooth_inv {i : Nat} (h : Reach (step cfg) (Smooth stream i) (.init cfg fs0) s) :
    (∀ e, (s.flow i).net = .finished (.error e) → ¬ e.fromCall) ∧ ¬ (s.flow i).writer.failed ∧
      (s.main = .running → Feeds stream (s.flow i)) := by
  cases h with
  | init => exact ⟨nofun, id, nofun⟩
  | step _ _ ho => exact ⟨ho.net, ho.writer, ho.fed⟩

end Thunderflash.Recv
