/-
The effects of the channel operations, of the hash stage and of the writer, and from them the
effect of every step of a session.
-/
import Thunderflash.Recv.Effect

namespace Thunderflash.Recv

open Codec Posix

variable {cfg : Cfg} {c : Choice} {sh sh' : Shared} {fl fl' : Flow} {j : Job}

/-! ## The net thread -/

theorem push_tokens (cfg : Cfg) (m : Msg) (fl : Flow) :
    ((fl.push cfg m).tokens).Perm (fl.tokens ++ m.inFlight.toList) := by
  unfold Flow.push Flow.tokens
  dsimp only
  split
  all_goals
    refine List.perm_iff_count.2 fun a => ?_
    simp only [inFlights_append, inFlights_cons, inFlights_nil, List.count_append, List.count_nil]
    omega

theorem LocalMove.same (h : LocalMove cfg fl fl') : Same fl fl' := by
  cases h with
  | goes hg ht _ _ => exact hg.sameHands ht
  | takeBuf hn _ he =>
    subst he
    exact NetOnly.same ⟨rfl, rfl, rfl, rfl, rfl, rfl, rfl, rfl, rfl, rfl⟩ (by rw [hn]; rfl)
  | reply hn _ he =>
    subst he
    exact NetOnly.same ⟨rfl, rfl, rfl, rfl, rfl, rfl, rfl, rfl, rfl, rfl⟩ (by rw [hn]; rfl)
  | @push j st m hn hm _ _ hg _ =>
    have ht : fl.net.tokens = m.inFlight.toList := by
      rw [hn]
      cases st <;> cases hm <;> rfl
    refine ⟨?_, ?_, ?_, ?_⟩
    · have h1 : fl'.tokens = fl'.net.tokens ++ (fl.push cfg m).tokens.drop fl.net.tokens.length := by
        simp only [Flow.tokens, hg.hq, hg.hash, hg.wq, hg.writer, Flow.push_net, List.drop_left]
      have h2 : (fl.push cfg m).tokens = fl.net.tokens ++ (fl.push cfg m).tokens.drop fl.net.tokens.length := by
        simp only [Flow.tokens, Flow.push_net, List.drop_left]
      have h3 := push_tokens cfg m fl
      rw [h2] at h3
      simp only [List.append_nil]
      rw [h1, hg.tokens, List.nil_append, ← List.perm_append_left_iff fl.net.tokens]
      exact h3.trans (by rw [ht]; exact List.perm_append_comm)
    · simp [hg.born]
    · simp [hg.kept]
    · simp [hg.undone]
  | back hn he =>
    subst he
    exact NetOnly.same ⟨rfl, rfl, rfl, rfl, rfl, rfl, rfl, rfl, rfl, rfl⟩ (by rw [hn]; rfl)

/-- Every step of the net thread. -/
theorem netStep_cases (h : fl.netStep cfg c sh = some (sh', fl')) :
    ¬ fl.netFinished ∧ Effect cfg c sh fl sh' fl' ∧ (LocalMove cfg fl fl' ∨ Flow.Apart fl fl') := by
  unfold Flow.netStep at h
  split at h
  · rename_i sys hreq
    cases hc : call cfg c sh sys with
    | mk sh1 r =>
      have he := Flow.netResume_effect hreq hc
      rw [hc] at h
      have h' := Option.some.inj h
      rw [h'] at he
      refine ⟨?_, he.1, .inr he.2⟩
      unfold Flow.netRequest at hreq
      split at hreq <;> first | cases hreq; done | (rename_i hn; simp [Flow.netFinished, hn])
  · obtain ⟨⟨hfs, -, -⟩, hf, hm⟩ := Flow.netLocal_move h
    exact ⟨hf, .still hfs hm.same, .inl hm⟩

/-! ## The hash stage -/

theorem dropMsg_effect {m : Msg} {fl0 : Flow} (hp : fl0.dropMsg cfg c m sh = (sh', fl'))
    (htok : fl.tokens.Perm (fl0.tokens ++ m.inFlight.toList)) (hb : fl0.log = fl.log) :
    Effect cfg c sh fl sh' fl' := by
  unfold Flow.dropMsg at hp
  cases hm : m.inFlight with
  | none =>
    rw [hm] at hp htok
    cases hp
    refine .still rfl ⟨?_, by simp [hb], by simp [hb], by simp [hb]⟩
    simpa using htok.symm
  | some t =>
    rw [hm] at hp htok
    cases hp
    have htok' : (fl0.logUndone t).tokens = fl0.tokens := rfl
    have hh : Hands fl (fl0.logUndone t) [] [] [t] := by
      refine ⟨?_, by simp [Flow.logUndone, hb], by simp [Flow.logUndone, hb], by simp [Flow.logUndone, hb]⟩
      rw [htok']
      simpa using htok.symm
    have hmem : t ∈ fl.tokens := htok.mem_iff.2 (by simp)
    rcases call_cases cfg c sh (.unlinkat t.parent t.name) with ⟨i, hr, -, hd⟩ | ⟨e, hr, hs⟩
    · exact .undo hd hmem hh
    · exact .leave (by rw [hs]) hmem ⟨e, hr⟩ hh

theorem hashStep_effect (h : fl.hashStep cfg c sh = some (sh', fl')) : Effect cfg c sh fl sh' fl' := by
  unfold Flow.hashStep at h
  split at h
  case h_1 hh =>
    split at h
    all_goals rename_i hq
    · cases h
      exact .still rfl ⟨by simp [Flow.tokens, hh, hq, HashPc.tokens, Msg.inFlight], by simp, by simp, by simp⟩
    · cases h
      exact .still rfl ⟨by simp [Flow.tokens, hh, hq, HashPc.tokens, Msg.inFlight], by simp, by simp, by simp⟩
    · cases h
      refine .still rfl ⟨List.perm_iff_count.2 fun a => ?_, by simp, by simp, by simp⟩
      simp only [Flow.tokens, hh, hq, HashPc.tokens, inFlights_cons, List.count_append, List.count_nil]
      omega
    · split at h <;> cases h
      exact .still rfl ⟨by simp [Flow.tokens, hh, HashPc.tokens], by simp, by simp, by simp⟩
  case h_2 m hh =>
    split at h
    · cases h
      exact .still rfl ⟨by simp [Flow.tokens, hh, HashPc.tokens], by simp, by simp, by simp⟩
    · split at h <;> cases h
      refine .still rfl ⟨List.perm_iff_count.2 fun a => ?_, by simp, by simp, by simp⟩
      simp only [Flow.tokens, hh, HashPc.tokens, inFlights_append, inFlights_cons, inFlights_nil, List.count_append,
        List.count_nil]
      omega
  case h_3 m hh =>
    refine dropMsg_effect (Option.some.inj h) (List.perm_iff_count.2 fun a => ?_) rfl
    simp only [Flow.tokens, hh, HashPc.tokens, inFlights_nil, List.count_append, List.count_nil]
    omega
  case h_4 m l hh =>
    refine dropMsg_effect (Option.some.inj h) (List.perm_iff_count.2 fun a => ?_) rfl
    simp only [Flow.tokens, hh, HashPc.tokens, inFlights_cons, List.count_append]
    omega
  case h_5 => cases h

/-! ## The writer -/

theorem undo_effect {t : InFlight} {fl0 : Flow} (hp : fl0.undo cfg c t sh = (sh', fl'))
    (htok : fl.tokens.Perm (fl0.tokens ++ [t])) (hb : fl0.log = fl.log) : Effect cfg c sh fl sh' fl' :=
  dropMsg_effect (m := .begin t) hp htok hb

theorem settle_cases (t : InFlight) (fl : Flow) :
    (∃ final, t.finalName = some final ∧ fl.settle t = { fl with writer := .rename t final }) ∨
      (t.finalName = none ∧ fl.settle t = { fl.logKept t with writer := .recv none }) := by
  unfold Flow.settle
  cases h : t.finalName with
  | none => exact .inr ⟨rfl, rfl⟩
  | some final => exact .inl ⟨final, rfl, rfl⟩

/-- Changing only the writer's program point, with the same files in its hands. -/
theorem same_of_writer {w : WriterPc} (h : w.tokens = fl.writer.tokens) {pool : Nat} :
    Same fl { fl with writer := w, pool } :=
  ⟨by simp [Flow.tokens, h], by simp, by simp, by simp⟩

theorem kept_of_writer {w : WriterPc} {t : InFlight} (h : fl.writer.tokens = [t]) (hw : w.tokens = []) :
    Hands fl { fl.logKept t with writer := w } [] [t] [] :=
  ⟨by simp [Flow.tokens, Flow.logKept, h, hw], by simp [Flow.logKept], by simp [Flow.logKept], by simp [Flow.logKept]⟩

theorem handle_effect (cfg : Cfg) (c : Choice) (sh : Shared) {current : Option Cursor} {m : Msg} {q : List Msg} (hw : fl.writer = .recv current)
    (hq : fl.wq = m :: q) :
    Effect cfg c sh fl
      (Flow.handle current m sh { fl with wq := q, log := { fl.log with taken := fl.log.taken ++ [m] } }).1
      (Flow.handle current m sh { fl with wq := q, log := { fl.log with taken := fl.log.taken ++ [m] } }).2 := by
  unfold Flow.handle
  split
  case h_6 o =>
    have hmode : (if o.t.mode &&& 0o600 ≠ 0o600 then WriterPc.chmod o.t else .stamp o.t).tokens = [o.t] := by
      split <;> rfl
    refine .still rfl ⟨List.perm_iff_count.2 fun a => ?_, by simp, by simp, by simp⟩
    simp only [Flow.tokens, hmode, hw, hq, inFlights_cons, Msg.inFlight, Option.toList_none, List.nil_append]
    rfl
  all_goals
    refine .still rfl ⟨List.perm_iff_count.2 fun a => ?_, by simp, by simp, by simp⟩
    simp only [Flow.tokens, hw, hq, WriterPc.tokens, inFlights_cons, Msg.inFlight, Option.toList_none,
      Option.toList_some, List.count_append, List.count_nil, List.count_cons]
    omega

theorem writerStep_effect (h : fl.writerStep cfg c sh = some (sh', fl')) : Effect cfg c sh fl sh' fl' := by
  unfold Flow.writerStep at h
  split at h
  case h_1 current hw =>
    split at h
    · rename_i m q _ hq
      have := handle_effect cfg c sh hw hq
      rw [Option.some.inj h] at this
      exact this
    · split at h <;> cases h
      exact .still rfl (same_of_writer (by rw [hw]; rfl))
    · split at h <;> cases h
      exact .still rfl (same_of_writer (by rw [hw]; rfl))
  case h_2 old t hw =>
    refine undo_effect (Option.some.inj h) (List.perm_iff_count.2 fun a => ?_) rfl
    simp only [Flow.tokens, hw, WriterPc.tokens, List.count_append, List.count_cons, List.count_nil]
    omega
  case h_3 o bytes hw =>
    split at h
    · cases h; exact .still rfl (same_of_writer (by rw [hw]; rfl))
    · split at h
      · rename_i hc
        split at h
        · rename_i sh1 i hcall
          cases h
          have hd := (call_ok (i := i) (by rw [hcall])).2
          rw [hcall] at hd
          have hl : (bytes.take c.count).length = c.count := by simp; omega
          have hw' : fl.writer = .write o (bytes.take c.count ++ bytes.drop c.count) := by
            rw [List.take_append_drop]; exact hw
          refine .fill hd hw' ?_ ?_
            (same_of_writer (by rw [hw]; rfl))
          · intro he; rw [he] at hl; simp at hl; omega
          · rw [hl]
        · rename_i sh1 e hcall
          cases h
          have he := call_eq_err hcall
          exact .still (by rw [he]) (same_of_writer (by rw [hw]; rfl))
      · cases h
  case h_4 t hw =>
    cases h
    have hs : Same fl { fl with writer := .stamp t } := same_of_writer (by rw [hw]; rfl)
    rcases call_cases cfg c sh (.fchmod t.file (t.mode &&& 0o777)) with ⟨i, -, -, hd⟩ | ⟨e, -, he⟩
    · exact .chmod hd hw hs
    · exact .still (by rw [he]) hs
  case h_5 t hw =>
    have hpair := Option.some.inj h
    obtain ⟨rfl, rfl⟩ := Prod.mk.inj hpair
    have hfl : Same fl (if cfg.durable then { fl with writer := .flush t } else fl.settle t) ∨
        (t.finalName = none ∧
          Hands fl (if cfg.durable then { fl with writer := .flush t } else fl.settle t) [] [t] []) := by
      split
      · exact .inl (same_of_writer (by rw [hw]; rfl))
      · rcases settle_cases t fl with ⟨final, -, hs⟩ | ⟨hf, hs⟩ <;> rw [hs]
        · exact .inl (same_of_writer (by rw [hw]; rfl))
        · exact .inr ⟨hf, kept_of_writer (by rw [hw]; rfl) rfl⟩
    rcases call_cases cfg c sh (.futimens t.file t.mtime) with ⟨i, -, -, hd⟩ | ⟨e, -, he⟩
    · exact .stamp hd hw hfl
    · rcases hfl with hs | ⟨hf, hk⟩
      · exact .still (by rw [he]) hs
      · exact .keep (by rw [he]) (.inr hw) hf hk
  case h_6 t hw =>
    split at h
    · rename_i sh1 i hcall
      have hd := (call_ok (i := i) (by rw [hcall])).2
      rw [hcall] at hd
      have hfs : sh1.fs = sh.fs := (Fs.exec_fsync hd.exec).1
      cases h
      rcases settle_cases t fl with ⟨final, -, hs⟩ | ⟨hf, hs⟩ <;> rw [hs]
      · exact .still hfs (same_of_writer (by rw [hw]; rfl))
      · exact .keep hfs (.inl hw) hf (kept_of_writer (by rw [hw]; rfl) rfl)
    · rename_i sh1 e hcall
      cases h
      have he := call_eq_err hcall
      exact .still (by rw [he]) (same_of_writer (by rw [hw]; rfl))
  case h_7 t final hw =>
    split at h
    · rename_i sh1 i hcall
      have hd := (call_ok (i := i) (by rw [hcall])).2
      rw [hcall] at hd
      cases h
      refine .commit hd hw (kept_of_writer (by rw [hw]; rfl) ?_)
      split <;> rfl
    · rename_i sh1 e hcall
      cases h
      have he := call_eq_err hcall
      exact .still (by rw [he]) (same_of_writer (by rw [hw]; rfl))
  case h_8 t hw =>
    split at h
    · rename_i sh1 i hcall
      have hd := (call_ok (i := i) (by rw [hcall])).2
      rw [hcall] at hd
      cases h
      have hfs : sh1.fs = sh.fs := (Fs.exec_fstat hd.exec).1
      exact .still ((Flow.register_fs _ _).1.trans hfs) (same_of_writer (by rw [hw]; rfl))
    · rename_i sh1 e hcall
      cases h
      have he := call_eq_err hcall
      exact .still (by rw [he]) (same_of_writer (by rw [hw]; rfl))
  case h_9 t e hw =>
    refine undo_effect (Option.some.inj h) (List.perm_iff_count.2 fun a => ?_) rfl
    simp only [Flow.tokens, Flow.writerFail, hw, WriterPc.tokens, List.count_append, List.count_nil, inFlights_nil]
    omega
  case h_10 t e hw =>
    cases h
    have hs : Same fl (fl.writerFail e) := by
      refine ⟨?_, by simp [Flow.writerFail], by simp [Flow.writerFail], by simp [Flow.writerFail]⟩
      simp [Flow.tokens, Flow.writerFail, hw, WriterPc.tokens]
    rcases call_cases cfg c sh (.unlinkat t.parent t.name) with ⟨i, -, -, hd⟩ | ⟨e', -, he⟩
    · exact .late hd hw hs
    · exact .still (by rw [he]) hs
  case h_11 t hw =>
    refine undo_effect (Option.some.inj h) (List.perm_iff_count.2 fun a => ?_) rfl
    simp only [Flow.tokens, hw, WriterPc.tokens, List.count_append, List.count_nil, inFlights_nil]
    omega
  case h_12 m l r hw =>
    refine dropMsg_effect (Option.some.inj h) (List.perm_iff_count.2 fun a => ?_) rfl
    simp only [Flow.tokens, hw, WriterPc.tokens, inFlights_cons, List.count_append]
    omega
  case h_13 => cases h

end Thunderflash.Recv
