/-
What a lane has written, against what its reader has read: a beginning of the frames of its items
at every moment, all of them when the socket loop comes to its end, and the terminator behind that.
-/
import Thunderflash.Send.Frames
import Thunderflash.Send.Work

namespace Thunderflash.Send

open Codec Lts

variable {cfg : Cfg} {c : Choice} {ln ln' : Lane} {todo0 : List Item} {src : Item → Bytes → Prop}
  {ok : Lane → Act → Lane → Prop}

/-! ## On the way to the socket -/

/-- What the hash stage holds. -/
def HashPc.hand : HashPc → List (Except Err Msg)
  | .forward m => [m]
  | .recv | .left => []

/-- Everything that has come out of the hash stage, or out of the reader when there is none. -/
def Lane.out (ln : Lane) : List (Except Err Msg) := ln.log.taken.map .ok ++ (ln.sq ++ ln.hash.hand)

/-- Between the reader and the socket loop nothing is lost or changed but for the hashing. -/
structure Piped (cfg : Cfg) (src : Item → Bytes → Prop) (todo0 : List Item) (ln : Lane) : Prop where
  reader : PcOk cfg src todo0 ln.log.sent ln.reader
  fed : Fed (hashed cfg) [] ln.log.sent ln.rq ln.hasher ln.out

theorem Piped.init (cfg : Cfg) (todo : List Item) : Piped cfg src todo (.init cfg todo) := by
  constructor
  · have hlog : (Lane.init cfg todo).log.sent = [] := by
      obtain ⟨r, hr⟩ := Lane.init_eq cfg todo
      rw [hr]
    rw [hlog]
    have hnone : Read src [] := fun _ h => by cases h
    exact PcOk.items hnone rfl (.init cfg)
  · obtain ⟨r, hr⟩ := Lane.init_eq cfg todo
    rw [hr]
    show Fed (hashed cfg) [] [] [] [] ([] ++ ([] ++ (if cfg.verify then HashPc.recv else .left).hand))
    split <;> exact .init

theorem Piped.readStep (hsrc : Source ok src) (hj : Joined cfg ln) (hf : ¬ ln.sock.failed) (h : Piped cfg src todo0 ln)
    (hs : ln.readStep cfg c = some ln') (ho : ok ln (.read c) ln') : Piped cfg src todo0 ln' := by
  obtain ⟨hl, hm⟩ := Lane.readStep_move hs
  obtain ⟨hgone, hret⟩ := hj.nobody_gone hf hl
  refine ⟨h.reader.readStep hsrc hgone hret hs ho, ?_⟩
  cases hm with
  | goes he => subst he; exact h.fed
  | take _ he => subst he; exact h.fed
  | @push m r f _ _ he =>
    subst he
    have hfed := h.fed.push m
    unfold Lane.push
    split
    · exact hfed
    · -- without the stage the message is out as soon as it is sent
      rename_i hv
      obtain ⟨hleft, hrq⟩ := hj.silent (by simpa using hv)
      rw [hrq, List.nil_append] at hfed
      have htake := hfed.take
      have hh : hashed cfg ln.hasher m = (ln.hasher, some m) := if_neg hv
      have hhand : ln.hash.hand = [] := by rw [show ln.hash = .left from hleft]; rfl
      rw [hh] at htake
      show Fed (hashed cfg) [] (ln.log.sent ++ [m]) ln.rq ln.hasher (ln.log.taken.map .ok ++ (ln.sq ++ [m] ++ ln.hash.hand))
      rw [hrq]
      simpa [Lane.out, hhand] using htake

theorem Piped.hashStep (hj : Joined cfg ln) (hf : ¬ ln.sock.failed) (hv : cfg.verify = true) (h : Piped cfg src todo0 ln)
    (hs : ln.hashStep cfg = some ln') : Piped cfg src todo0 ln' := by
  have hn := (Lane.hashStep_only hs).1
  have hp : ¬ ln.sock.past := by
    intro hp
    have hsrc := (hj.past hp).1
    unfold Lane.sourceLeft at hsrc
    rw [if_pos hv] at hsrc
    exact hn hsrc
  have hfed := h.fed
  unfold Lane.hashStep at hs
  split at hs
  case h_1 hh =>
    -- the stage takes one message and holds what it makes of it
    have htake : ∀ {m q}, ln.rq = m :: q → Fed (hashed cfg) [] ln.log.sent q (hashed cfg ln.hasher m).1
        (ln.log.taken.map .ok ++ (ln.sq ++ (hashed cfg ln.hasher m).2.toList)) := by
      intro m q hq
      rw [hq] at hfed
      simpa [Lane.out, hh, HashPc.hand] using hfed.take
    split at hs
    · rename_i bytes q hq
      cases hs
      have htk := htake hq
      rw [show hashed cfg ln.hasher (.ok (.chunk bytes)) = (ln.hasher ++ bytes, some (.ok (.chunk bytes))) from if_pos hv] at htk
      exact ⟨h.reader, htk⟩
    · rename_i q hq
      cases hs
      have htk := htake hq
      rw [show hashed cfg ln.hasher (.ok .endPayload) = ([], some (.ok (.digest (cfg.blake3 ln.hasher)))) from if_pos hv] at htk
      exact ⟨h.reader, htk⟩
    · rename_i m q hc he hq
      cases hs
      have hh : hashed cfg ln.hasher m = (ln.hasher, some m) := by
        unfold hashed
        rw [if_pos hv]
        split
        · exact absurd rfl (hc _)
        · exact absurd rfl he
        · rfl
      have htk := htake hq
      rw [hh] at htk
      exact ⟨h.reader, htk⟩
    · rename_i hq
      split at hs <;> cases hs
      exact ⟨h.reader, by simpa [Lane.out, hh, HashPc.hand] using hfed⟩
  case h_2 m hh =>
    split at hs
    · rename_i hg
      exact absurd ((rxGone_iff ln).1 hg) (fun hx => hx.elim hf hp)
    · split at hs <;> cases hs
      exact ⟨h.reader, by simpa [Lane.out, hh, HashPc.hand] using hfed⟩
  case h_3 => cases hs

theorem Piped.sockStep (hf : ¬ ln'.sock.failed) (h : Piped cfg src todo0 ln) (hs : ln.sockStep cfg c = some ln') :
    Piped cfg src todo0 ln' := by
  have hfed := h.fed
  -- all but the taking of a message leaves both alone
  have hsame : ln'.reader = ln.reader → ln'.log = ln.log → ln'.rq = ln.rq → ln'.hasher = ln.hasher → ln'.sq = ln.sq →
      ln'.hash = ln.hash → Piped cfg src todo0 ln' := by
    intro hr hlog hrq hhs hsq hh
    refine ⟨by rw [hr, hlog]; exact h.reader, ?_⟩
    rw [hlog, hrq, hhs, Lane.out, hlog, hsq, hh]
    exact hfed
  unfold Lane.sockStep at hs
  split at hs
  case h_1 =>
    split at hs
    · cases hs; exact absurd trivial hf
    · cases hs; exact absurd trivial hf
    · rename_i m q _ hq
      cases hs
      refine ⟨h.reader, ?_⟩
      simpa [Lane.out, hq] using hfed
    · split at hs <;> cases hs
      exact hsame rfl rfl rfl rfl rfl rfl
  case h_2 m _ =>
    cases hs
    unfold Lane.counted at hsame ⊢
    cases m <;> exact hsame rfl rfl rfl rfl rfl rfl
  case h_3 =>
    split at hs
    · cases hs; exact absurd trivial hf
    · split at hs <;> cases hs
      exact hsame rfl rfl rfl rfl rfl rfl
  case h_4 => cases hs; exact absurd trivial hf
  case h_5 => split at hs <;> cases hs; exact hsame rfl rfl rfl rfl rfl rfl
  case h_6 => split at hs <;> cases hs; exact hsame rfl rfl rfl rfl rfl rfl
  case h_7 =>
    split at hs
    · cases hs; exact absurd trivial hf
    · cases hs; exact hsame rfl rfl rfl rfl rfl rfl
  case h_8 => cases hs
  case h_9 => cases hs

/-- A loop left by an error stays so. -/
theorem failed_step {a : Act} (hst : step cfg ln a = some ln') (hf : ln.sock.failed) : ln'.sock.failed := by
  rcases step_cases hst with ⟨c, h⟩ | ⟨-, h⟩ | ⟨c, h⟩
  · cases (Lane.readStep_move h).2 with
    | goes he => subst he; exact hf
    | take _ he => subst he; exact hf
    | push _ _ he =>
      subst he
      unfold Lane.push
      split <;> exact hf
  · obtain ⟨-, rq, hasher, sq, hash, rfl⟩ := Lane.hashStep_only h
    exact hf
  · unfold Lane.sockStep at h
    split at h
    case h_4 => cases h; trivial
    case h_8 => cases h
    case h_9 => cases h
    all_goals
      rename_i hk
      rw [hk] at hf
      exact hf.elim

theorem piped_inv (hsrc : Source ok src) (h : Reach (step cfg) ok (.init cfg todo0) ln) :
    ¬ ln.sock.failed → Piped cfg src todo0 ln := by
  refine @Reach.invariant_while _ _ _ _ _ _ (Piped cfg src todo0) (fun ln => ¬ ln.sock.failed) h (.init cfg todo0)
    (fun ln a ln' hst hn hf => hn (failed_step hst hf)) ?_
  intro ln a ln' hr hf hf' ih hst ho
  have hj := joined_inv hr.any
  cases a with
  | read c => exact ih.readStep hsrc hj hf hst ho
  | hash =>
    rw [show step cfg ln .hash = if cfg.verify then ln.hashStep cfg else none from rfl] at hst
    split at hst
    · exact ih.hashStep hj hf (by assumption) hst
    · cases hst
  | sock c => exact ih.sockStep hf' hst

/-! ## On the wire -/

/-- What the socket loop has written, where it stands. -/
def Wrote (wrote took : Bytes) : SockPc → Prop
  | .recv | .joinReader | .joinHasher | .terminator => wrote = took
  | .writing _ todo => wrote ++ todo = took
  | .closing _ | .left (.error _) => wrote <+: took
  | .left (.ok _) => wrote = took ++ [0]
  | .panicked => False

structure Written (cfg : Cfg) (src : Item → Bytes → Prop) (todo0 : List Item) (ln : Lane) : Prop where
  begun : Begun cfg todo0 (ln.log.taken.map .ok)
  wrote : Wrote ln.wrote (allBytes (ln.log.taken.map .ok)) ln.sock
  complete : ln.sock.past → ∃ frs, Read src frs ∧ todo0 = frs.map Sent.item ∧
    allBytes (ln.log.taken.map .ok) = encodeAll cfg frs

theorem Written.init (cfg : Cfg) (todo : List Item) : Written cfg src todo (.init cfg todo) := by
  obtain ⟨r, hr⟩ := Lane.init_eq cfg todo
  rw [hr]
  refine ⟨?_, rfl, fun hp => hp.elim⟩
  obtain ⟨frs, hf⟩ := exists_framing todo
  exact ⟨frs, hf, List.nil_prefix⟩

/-- What a message adds that the loop takes off its channel. -/
theorem Begun.taken {m : Msg} {q : List (Except Err Msg)} (hp : Piped cfg src todo0 ln) (hq : ln.sq = .ok m :: q) :
    Begun cfg todo0 ((ln.log.taken ++ [m]).map .ok) := by
  obtain ⟨frs, hf, hpre⟩ := hp.reader.begun
  refine ⟨frs, hf, (allBytes_mono ?_).trans hpre⟩
  refine List.IsPrefix.trans ?_ hp.fed.out_isPrefix
  rw [Lane.out, hq]
  exact ⟨q ++ ln.hash.hand, by simp⟩

/-- The loop never meets a mark that the hash stage should have turned into a digest. -/
theorem Piped.writable {m : Except Err Msg} {q : List (Except Err Msg)} (hp : Piped cfg src todo0 ln) (hq : ln.sq = m :: q) :
    m ≠ .ok .endPayload := by
  have hmem : m ∈ (sunk cfg ln.log.sent).2 := by
    refine hp.fed.out_isPrefix.subset ?_
    rw [Lane.out, hq]
    simp
  have hclean : ∀ x ∈ (sunk cfg ln.log.sent).2, x ≠ .ok .endPayload := by
    have hof : ∀ {x : Except Err Msg}, Writable x → x ≠ .ok .endPayload := by
      rintro _ ⟨m', rfl, hm⟩ he
      cases he
      exact hm rfl
    have hr := hp.reader
    cases hk : ln.reader with
    | «at» item st todo =>
      rw [hk] at hr
      obtain ⟨done, -, -, hst⟩ := hr
      exact fun x hx => hof (hst.clean x hx)
    | sendErr e =>
      rw [hk] at hr
      exact fun x hx => hof (hr.2 x hx)
    | left =>
      rw [hk] at hr
      rcases hr with ⟨frs, -, -, ha⟩ | ⟨-, l, e, he, hl⟩
      · exact fun x hx => hof (ha.clean x hx)
      · intro x hx
        rw [he] at hx
        rcases List.mem_append.1 hx with hx | hx
        · exact hof (hl x hx)
        · rw [List.mem_singleton.1 hx]
          intro h
          cases h
  exact hclean m hmem

/-- When the loop finds its channel empty for good, it has taken everything the reader sent. -/
theorem Piped.drained (hj : Joined cfg ln) (hf : ¬ ln.sock.failed) (hp : Piped cfg src todo0 ln) (hq : ln.sq = [])
    (hl : ln.sourceLeft cfg) : ln.readerLeft ∧ (sunk cfg ln.log.sent).2 = ln.log.taken.map .ok := by
  have hleft : ln.readerLeft ∧ ln.rq = [] ∧ ln.hash.hand = [] := by
    unfold Lane.sourceLeft at hl
    split at hl
    · rename_i hv
      obtain ⟨hr, hrq⟩ := (hj.hash hv hl).resolve_left hf
      exact ⟨hr, hrq, by rw [show ln.hash = .left from hl]; rfl⟩
    · rename_i hv
      obtain ⟨hh, hrq⟩ := hj.silent (by simpa using hv)
      exact ⟨hl, hrq, by rw [show ln.hash = .left from hh]; rfl⟩
  obtain ⟨hr, hrq, hhand⟩ := hleft
  have hfed := hp.fed
  rw [hrq] at hfed
  refine ⟨hr, ?_⟩
  rw [sunk, hfed.drained, Lane.out, hq, hhand]
  simp

/-- And the reader has read everything. -/
theorem Piped.complete (hj : Joined cfg ln) (hf : ¬ ln.sock.failed) (hp : Piped cfg src todo0 ln) (hq : ln.sq = [])
    (hl : ln.sourceLeft cfg) :
    ∃ frs, Read src frs ∧ todo0 = frs.map Sent.item ∧ allBytes (ln.log.taken.map .ok) = encodeAll cfg frs := by
  obtain ⟨hr, hout⟩ := hp.drained hj hf hq hl
  have hpc := hp.reader
  rw [show ln.reader = .left from hr] at hpc
  rcases hpc with ⟨frs, hread, hitems, ha⟩ | ⟨-, l, e, he, -⟩
  · exact ⟨frs, hread, hitems, by rw [← hout, ha.bytes]⟩
  · -- an error would have been taken off the channel, and ended the loop
    exfalso
    rw [hout] at he
    have hmem : (.error e : Except Err Msg) ∈ ln.log.taken.map .ok := by rw [he]; simp
    obtain ⟨m, -, hm⟩ := List.mem_map.1 hmem
    cases hm

theorem Written.sockStep (hj : Joined cfg ln) (hp : ¬ ln.sock.failed → Piped cfg src todo0 ln) (h : Written cfg src todo0 ln)
    (hs : ln.sockStep cfg c = some ln') : Written cfg src todo0 ln' := by
  have hw := h.wrote
  -- where nothing is taken off the channel and the end is not reached
  have hsame : ln'.log = ln.log → Wrote ln'.wrote (allBytes (ln.log.taken.map .ok)) ln'.sock →
      (ln'.sock.past → ln.sock.past) → Written cfg src todo0 ln' := by
    intro hlog hwr hpast
    refine ⟨by rw [hlog]; exact h.begun, by rw [hlog]; exact hwr, fun hx => ?_⟩
    rw [hlog]
    exact h.complete (hpast hx)
  unfold Lane.sockStep at hs
  split at hs
  case h_1 hk =>
    have hpi := hp (by rw [hk]; exact id)
    rw [hk] at hw
    have hwr : ln.wrote = allBytes (ln.log.taken.map .ok) := hw
    split at hs
    · cases hs
      exact hsame rfl (by show ln.wrote <+: _; rw [hwr]) False.elim
    · rename_i hq
      exact absurd rfl (hpi.writable hq)
    · rename_i m q _ hq
      cases hs
      refine ⟨Begun.taken hpi hq, ?_, False.elim⟩
      show ln.wrote ++ m.bytes = allBytes ((ln.log.taken ++ [m]).map .ok)
      rw [hwr]
      simp [bytesOf]
    · rename_i hq
      split at hs
      · rename_i hl
        have hall := hpi.complete hj (by rw [hk]; exact id) hq hl
        cases hs
        exact ⟨h.begun, hwr, fun _ => hall⟩
      · cases hs
  case h_2 m hk =>
    cases hs
    rw [hk] at hw
    have hwr : ln.wrote ++ [] = allBytes (ln.log.taken.map .ok) := hw
    rw [List.append_nil] at hwr
    unfold Lane.counted at hsame ⊢
    cases m <;> exact hsame rfl hwr False.elim
  case h_3 m todo _ hk =>
    rw [hk] at hw
    have hwr : ln.wrote ++ todo = allBytes (ln.log.taken.map .ok) := hw
    split at hs
    · cases hs
      exact hsame rfl (by show ln.wrote <+: _; rw [← hwr]; exact List.prefix_append ..) False.elim
    · split at hs <;> cases hs
      refine hsame rfl ?_ False.elim
      show ln.wrote ++ todo.take c.count ++ todo.drop c.count = _
      rw [List.append_assoc, List.take_append_drop]
      exact hwr
  case h_4 hk =>
    cases hs
    rw [hk] at hw
    exact hsame rfl hw False.elim
  case h_5 hk =>
    rw [hk] at hw
    split at hs <;> cases hs
    refine hsame rfl ?_ fun _ => by rw [hk]; trivial
    show Wrote ln.wrote _ (if cfg.verify then .joinHasher else .terminator)
    split <;> exact hw
  case h_6 hk =>
    rw [hk] at hw
    split at hs <;> cases hs
    exact hsame rfl hw fun _ => by rw [hk]; trivial
  case h_7 hk =>
    rw [hk] at hw
    have hwr : ln.wrote = allBytes (ln.log.taken.map .ok) := hw
    split at hs
    · cases hs
      exact hsame rfl (by show ln.wrote <+: _; rw [hwr]) False.elim
    · cases hs
      exact hsame rfl (by show ln.wrote ++ [0] = _; rw [hwr]) fun _ => by rw [hk]; trivial
  case h_8 => cases hs
  case h_9 => cases hs

theorem written_inv (hsrc : Source ok src) (h : Reach (step cfg) ok (.init cfg todo0) ln) : Written cfg src todo0 ln := by
  refine h.invariant (.init cfg todo0) ?_
  intro ln a ln' hr ih hst _
  have hof : ln'.log.taken = ln.log.taken → ln'.wrote = ln.wrote → ln'.sock = ln.sock → Written cfg src todo0 ln' := by
    intro hlog hwr hk
    exact ⟨by rw [hlog]; exact ih.begun, by rw [hlog, hwr, hk]; exact ih.wrote, by rw [hlog, hk]; exact ih.complete⟩
  rcases step_cases hst with ⟨c, h⟩ | ⟨-, h⟩ | ⟨c, h⟩
  · cases (Lane.readStep_move h).2 with
    | goes he => subst he; exact hof rfl rfl rfl
    | take _ he => subst he; exact hof rfl rfl rfl
    | push _ _ he =>
      subst he
      unfold Lane.push at hof ⊢
      split at hof <;> rename_i hv
      · rw [if_pos hv]; exact hof rfl rfl rfl
      · rw [if_neg hv]; exact hof rfl rfl rfl
  · obtain ⟨-, rq, hasher, sq, hash, rfl⟩ := Lane.hashStep_only h
    exact hof rfl rfl rfl
  · exact ih.sockStep (joined_inv hr.any) (piped_inv hsrc hr) h

/-- Whatever the source answers and wherever the socket fails, a lane has written a beginning of a
framing of its items, and it never panics. It returns Ok only behind all of the frames and the
terminator, and returns an error in every other run that has come to its end. -/
theorem lane_framed (h : Reachable cfg todo0 ln) :
    ln.sock ≠ .panicked ∧
    (∃ frs, Framing todo0 frs ∧
      if ln.sock = .left (.ok ()) then ln.wrote = encodeAll cfg frs ++ [0] else ln.wrote <+: encodeAll cfg frs) ∧
    (1 ≤ cfg.depth → ¬ Moves cfg ln → ln.sock = .left (.ok ()) ∨ ∃ e, ln.sock = .left (.error e)) := by
  have hw := written_inv Source.any h
  have hwr := hw.wrote
  have hpanic : ln.sock ≠ .panicked := by
    intro hk
    rw [hk] at hwr
    exact hwr
  refine ⟨hpanic, ?_, fun hd hno => ?_⟩
  · split
    · rename_i hk
      obtain ⟨frs, hread, rfl, hall⟩ := hw.complete (by rw [hk]; trivial)
      rw [hk] at hwr
      have hend : ln.wrote = allBytes (ln.log.taken.map .ok) ++ [0] := hwr
      exact ⟨frs, hread.framing, by rw [hend, hall]⟩
    · rename_i hk
      obtain ⟨frs, hf, hpre⟩ := hw.begun
      refine ⟨frs, hf, List.IsPrefix.trans ?_ hpre⟩
      cases hs : ln.sock with
      | left r =>
        rw [hs] at hwr hk
        cases r with
        | ok u => exact absurd rfl hk
        | error e => exact hwr
      | writing m todo =>
        rw [hs] at hwr
        exact ⟨todo, hwr⟩
      | closing e => rw [hs] at hwr; exact hwr
      | panicked => exact absurd hs hpanic
      | _ => rw [hs] at hwr; exact hwr ▸ List.prefix_rfl
  · have hdone : ln.Done := by
      by_contra hnd
      exact hno (lane_progress hd h hnd)
    have hret := hdone.2.2
    unfold Lane.returned at hret
    cases hs : ln.sock with
    | left r =>
      cases r with
      | ok u => exact .inl rfl
      | error e => exact .inr ⟨e, rfl⟩
    | panicked => exact absurd hs hpanic
    | _ => rw [hs] at hret; exact hret.elim

/-- A file that shrinks under the reader: the header is out, and the lane returns an error. -/
def shrinks : List Act :=
  let carry : List Act := [.hash, .hash, .sock plain]
  [.read plain] ++ carry ++ [.sock ⟨none, [], itemA.header.length⟩, .sock plain, .read plain, .read plain,
    .read ⟨none, [7], 0⟩, .read ⟨none, [], 0⟩, .read plain] ++ carry ++ [.sock plain]

theorem lane_framed_shrunk : ∃ ln, run (step narrow) (.init narrow [itemA]) shrinks = some ln ∧
    ln.sock = .left (.error (.shrank itemA.entry.path 2 1)) ∧ ln.wrote = itemA.header ∧
    ln.sock ≠ .panicked ∧
    (∃ frs, Framing [itemA] frs ∧
      if ln.sock = .left (.ok ()) then ln.wrote = encodeAll narrow frs ++ [0] else ln.wrote <+: encodeAll narrow frs) ∧
    (1 ≤ narrow.depth → ¬ Moves narrow ln → ln.sock = .left (.ok ()) ∨ ∃ e, ln.sock = .left (.error e)) := by
  have hrun : ((run (step narrow) (.init narrow [itemA]) shrinks).any fun ln =>
      decide (ln.sock = .left (.error (.shrank itemA.entry.path 2 1)) ∧ ln.wrote = itemA.header)) = true := by decide +kernel
  obtain ⟨ln, hs, hv⟩ := (Option.any_eq_true _ _).1 hrun
  obtain ⟨hk, hw⟩ := of_decide_eq_true hv
  exact ⟨ln, hs, hk, hw, lane_framed (.of_run hs : Reachable narrow [itemA] ln)⟩

end Thunderflash.Send
