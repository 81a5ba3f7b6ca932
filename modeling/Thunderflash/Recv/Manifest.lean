/-
The manifest phase at the receiver: the answer to each File entry is whether the destination holds
that file, whatever the parent cache has kept, and the reply is the bitmap of these answers.
-/
import Thunderflash.Recv.Steps
import Thunderflash.Wire.Stream

namespace Thunderflash.Recv

open Codec Posix Lts

variable {cfg : Cfg} {c : Choice} {fs0 fs : Fs} {s s' : State} {e : Entry}

/-! ## Held files -/

/-- The destination has, reached through real directories only, a regular file of this size and
mtime at the sanitized path. -/
def Holds (fs : Fs) (root : Nat) (e : Entry) : Prop :=
  ∃ comps i b, sanitize e.path.bytes = .ok comps ∧ Posix.resolve fs.entry root comps = some i ∧
    fs.leaf i = some (.file b) ∧ b.length = e.size.toNat ∧ fs.mtime i = some e.mtime

/-- The same, computed. -/
def fileHeld (fs : Fs) (root : Nat) (e : Entry) : Bool :=
  match sanitize e.path.bytes with
  | .error _ => false
  | .ok comps =>
    match Posix.resolve fs.entry root comps with
    | some i => State.matches_ fs e i
    | none => false

theorem matches_iff {i : Nat} : State.matches_ fs e i = true ↔
    ∃ b, fs.leaf i = some (.file b) ∧ b.length = e.size.toNat ∧ fs.mtime i = some e.mtime := by
  unfold State.matches_
  split
  · rename_i b hl
    simp [hl]
  · rename_i hl
    simp only [Bool.false_eq_true, false_iff, not_exists, not_and]
    exact fun b hb => absurd hb (hl b)

theorem fileHeld_iff {root : Nat} : fileHeld fs root e = true ↔ Holds fs root e := by
  unfold fileHeld Holds
  cases hs : sanitize e.path.bytes with
  | error err => simp
  | ok comps =>
    cases hr : Posix.resolve fs.entry root comps with
    | none => simp [hr]
    | some i => simp [hr, matches_iff]

/-- The bits that answer these entries. -/
def answers (fs : Fs) (root : Nat) (es : List Entry) : List Bool := (es.filter (·.kind == .file)).map (fileHeld fs root)

@[simp] theorem answers_append (root : Nat) (a b : List Entry) : answers fs root (a ++ b) = answers fs root a ++ answers fs root b := by
  simp [answers]

theorem answers_file {root : Nat} (h : e.kind = .file) : answers fs root [e] = [fileHeld fs root e] := by simp [answers, h]

theorem answers_other {root : Nat} (h : e.kind ≠ .file) : answers fs root [e] = [] := by simp [answers, h]

/-- No directory has a longer name than it can take. -/
def Named (fs : Fs) : Prop := ∀ {d n i}, fs.entry d n = some i → n.length ≤ NAME_MAX

/-- Where `openDir` fails there is no directory. -/
theorem openDir_error {um : UInt32} {now : Int64} {d : Nat} {n : Name} {err : Errno} (hn : Named fs)
    (h : fs.exec um now (.openDir d n) = .error err) {i : Nat} (hi : fs.entry d n = some i) : fs.leaf i ≠ some .dir := by
  intro hl
  have hd := Fs.dir_of_entry hi
  have hc : fs.checkAt d n = .ok () := by
    unfold Fs.checkAt
    rw [if_neg (by have := hn hi; omega), if_pos hd]
  simp [Fs.exec, hc, hi, hl, Bind.bind, Except.bind] at h

/-- Where `fstatat` fails there is nothing. -/
theorem fstatat_error {um : UInt32} {now : Int64} {d : Nat} {n : Name} {err : Errno} (hn : Named fs)
    (h : fs.exec um now (.fstatat d n) = .error err) : fs.entry d n = none := by
  cases hi : fs.entry d n with
  | none => rfl
  | some i =>
    have hc : fs.checkAt d n = .ok () := by
      unfold Fs.checkAt
      rw [if_neg (by have := hn hi; omega), if_pos (Fs.dir_of_entry hi)]
    simp [Fs.exec, hc, hi, Bind.bind, Except.bind] at h

/-- A path through something that is not a directory leads nowhere. -/
theorem resolve_stuck {d i : Nat} {n m : Name} {ps : List Name} (hi : fs.entry d n = some i) (hl : fs.leaf i ≠ some .dir) :
    Posix.resolve fs.entry d (n :: m :: ps) = none := by
  rw [resolve_cons, hi]
  show Posix.resolve fs.entry i (m :: ps) = none
  rw [resolve_cons, Fs.entry_none_of_leaf hl]
  rfl

/-! ## The invariant -/

def encodings (es : List Entry) : Bytes := (es.map Entry.encode).flatten

@[simp] theorem encodings_append (a b : List Entry) : encodings (a ++ b) = encodings a ++ encodings b := by simp [encodings]

@[simp] theorem encodings_singleton (e : Entry) : encodings [e] = e.encode := by simp [encodings]

/-- The entries `es` have been read, and their Files answered. -/
structure Heard (cfg : Cfg) (fs0 : Fs) (bits : List Bool) (es : List Entry) : Prop where
  framed : ∀ e ∈ es, e.Framed
  bits : bits = answers fs0 cfg.root es

theorem Heard.snoc {bits bits' : List Bool} {es : List Entry} (h : Heard cfg fs0 bits es) (hf : e.Framed)
    (hb : bits' = bits ++ answers fs0 cfg.root [e]) : Heard cfg fs0 bits' (es ++ [e]) := by
  refine ⟨fun x hx => ?_, by rw [hb, h.bits, answers_append]⟩
  rcases List.mem_append.1 hx with hx | hx
  · exact h.framed x hx
  · rw [List.mem_singleton.1 hx]; exact hf

/-- The whole manifest has been read. -/
def Listed (cfg : Cfg) (fs0 : Fs) (bits : List Bool) (got : Bytes) : Prop :=
  ∃ es, Heard cfg fs0 bits es ∧ got = encodings es ++ Entry.terminator

/-- A File entry is being looked up. -/
def Asking (cfg : Cfg) (fs0 : Fs) (bits : List Bool) (got : Bytes) (e : Entry) (comps : List Name) : Prop :=
  ∃ es, Heard cfg fs0 bits es ∧ got = encodings es ++ e.encode ∧ e.Framed ∧ e.kind = .file ∧ sanitize e.path.bytes = .ok comps

def ManifestOk (cfg : Cfg) (fs0 : Fs) (bits : List Bool) (got reply : Bytes) : MainPc → Prop
  | .openRoot => (Heard cfg fs0 bits [] ∧ got = []) ∧ reply = []
  | .manifest => (∃ es, Heard cfg fs0 bits es ∧ got = encodings es) ∧ reply = []
  | .chainRoot e parents name => Asking cfg fs0 bits got e (parents ++ [name]) ∧ reply = []
  | .chain e name dir done component todo =>
    (Asking cfg fs0 bits got e (done ++ component :: todo ++ [name]) ∧ Posix.resolve fs0.entry cfg.root done = some dir) ∧ reply = []
  | .stat e name dir =>
    (∃ ps, Asking cfg fs0 bits got e (ps ++ [name]) ∧ Posix.resolve fs0.entry cfg.root ps = some dir) ∧ reply = []
  | .answer => Listed cfg fs0 bits got ∧ reply = []
  | .pairing | .running | .flushing _ | .acking => Listed cfg fs0 bits got ∧ reply = encodeBitmap bits
  | .returned (.ok _) => Listed cfg fs0 bits got ∧ reply = encodeBitmap bits ++ [ACK]
  | .returned (.error _) => reply = [] ∨ (Listed cfg fs0 bits got ∧ reply = encodeBitmap bits)

structure ManifestInv (cfg : Cfg) (fs0 : Fs) (s : State) : Prop where
  cached : ∀ ps d, s.cache = some (ps, d) → Posix.resolve fs0.entry cfg.root ps = some d
  phase : ManifestOk cfg fs0 s.bits s.got s.reply s.main

theorem ManifestInv.init (cfg : Cfg) (fs0 : Fs) : ManifestInv cfg fs0 (.init cfg fs0) :=
  ⟨fun _ _ h => (by cases h), ⟨⟨fun _ h => (by cases h), rfl⟩, rfl⟩, rfl⟩

section Step

variable {comps : List Name}

theorem Asking.answer (h : Asking cfg fs0 s.bits s.got e comps) (hr : s.reply = []) {have_ : Bool}
    (hh : have_ = fileHeld fs0 cfg.root e) :
    ManifestOk cfg fs0 (s.answer e have_).bits (s.answer e have_).got (s.answer e have_).reply (s.answer e have_).main := by
  obtain ⟨es, hes, hgot, hf, hk, -⟩ := h
  refine ⟨⟨es ++ [e], hes.snoc hf ?_, ?_⟩, hr⟩
  · rw [answers_file hk, ← hh]
    rfl
  · show s.got = _
    rw [hgot, encodings_append, encodings_singleton]

/-- What the look-up of a sanitized path comes to. -/
theorem Asking.held {bits : List Bool} {got : Bytes} (h : Asking cfg fs0 bits got e comps) : fileHeld fs0 cfg.root e =
    match Posix.resolve fs0.entry cfg.root comps with
    | some i => State.matches_ fs0 e i
    | none => false := by
  obtain ⟨es, -, -, -, -, hs⟩ := h
  unfold fileHeld
  rw [hs]

/-- The parents are open. -/
theorem ManifestInv.arrive {parents : List Name} {name : Name} {dir : Nat} (hq : Asking cfg fs0 s.bits s.got e (parents ++ [name]))
    (hr : s.reply = []) (hd : Posix.resolve fs0.entry cfg.root parents = some dir) :
    ManifestInv cfg fs0 (s.arrive e parents name dir) := by
  refine ⟨fun ps d h => ?_, ⟨parents, hq, hd⟩, hr⟩
  obtain ⟨rfl, rfl⟩ := Prod.mk.inj (Option.some.inj h)
  exact hd

theorem ManifestInv.held (hc : ∀ ps d, s.cache = some (ps, d) → Posix.resolve fs0.entry cfg.root ps = some d) {es : List Entry}
    (hes : Heard cfg fs0 s.bits es) (hgot : s.got = encodings es ++ e.encode) (hf : e.Framed) (hk : e.kind = .file)
    (hr : s.reply = []) : ManifestInv cfg fs0 (s.held e) := by
  unfold State.held
  split
  · rename_i err hs
    refine ⟨hc, ⟨es ++ [e], hes.snoc hf ?_, ?_⟩, hr⟩
    · rw [answers_file hk]
      simp [State.answer, fileHeld, hs]
    · show s.got = _
      rw [hgot, encodings_append, encodings_singleton]
  · rename_i comps hs
    have hne := (sanitize_ok hs).1
    have hq : Asking cfg fs0 s.bits s.got e (comps.dropLast ++ [comps.getLastD []]) := by
      refine ⟨es, hes, hgot, hf, hk, ?_⟩
      rw [hs, List.getLastD_eq_getLast?, List.getLast?_eq_some_getLast hne, Option.getD_some, List.dropLast_concat_getLast]
    split
    · rename_i ps d hcd
      split
      · rename_i heq
        subst heq
        exact ⟨hc, ⟨comps.dropLast, hq, hc _ _ hcd⟩, hr⟩
      · exact ⟨hc, hq, hr⟩
    · exact ⟨hc, hq, hr⟩

end Step

/-- What an open or a look at a name answers when nothing fails. -/
theorem call_plain {sh : Shared} {sys : Sys} {r : Except Errno Nat} (hf : c.fault = none) (hs : s.sh.fs = fs0)
    (h : call cfg c s.sh sys = (sh, r)) : (∃ i, r = .ok i ∧ fs0.exec cfg.umask c.now sys = .ok (sh.fs, i)) ∨
      ∃ err, r = .error err ∧ fs0.exec cfg.umask c.now sys = .error err := by
  unfold call at h
  rw [hf, hs] at h
  dsimp only at h
  split at h
  · rename_i fs i hx
    cases h
    exact .inl ⟨i, rfl, hx⟩
  · rename_i err hx
    cases h
    exact .inr ⟨err, rfl, hx⟩

theorem held_keeps (s : State) (e : Entry) : (s.held e).flow = s.flow ∧ (s.held e).got = s.got := by
  unfold State.held
  split
  · exact ⟨rfl, rfl⟩
  · split
    · split <;> exact ⟨rfl, rfl⟩
    · exact ⟨rfl, rfl⟩

/-- Nothing is lost where the stream is consumed. -/
theorem consume_stream (s : State) {a rest : Bytes} (hw : (s.flow 0).wire = a ++ rest) :
    ((s.consume rest).flow 0).wire = rest ∧ (s.consume rest).got = s.got ++ a := by
  refine ⟨by simp [State.consume], ?_⟩
  show s.got ++ (s.flow 0).wire.take ((s.flow 0).wire.length - rest.length) = _
  rw [hw]
  simp

theorem ManifestInv.mainStep (hn : Named fs0) (hp : PhaseOk cfg fs0 s s.main) (h : ManifestInv cfg fs0 s) (hf : c.fault = none)
    (hs : mainStep cfg c s = some s') : ManifestInv cfg fs0 s' := by
  obtain ⟨hc, hph⟩ := h
  unfold Recv.mainStep at hs
  split at hs
  case h_1 hm =>
    rw [hf] at hs
    rw [hm] at hph
    obtain ⟨⟨hes, hgot⟩, hr⟩ := hph
    cases hs
    exact ⟨hc, ⟨[], hes, hgot⟩, hr⟩
  case h_2 hm =>
    rw [hf] at hs
    rw [hm] at hph
    obtain ⟨⟨es, hes, hgot⟩, hr⟩ := hph
    have hgot' : ∀ {a rest : Bytes}, (s.flow 0).wire = a ++ rest → (s.consume rest).got = encodings es ++ a := by
      intro a rest hw
      rw [(consume_stream s hw).2, hgot]
    split at hs
    · rename_i hx; cases hx
    · split at hs <;> cases hs
      exact ⟨hc, .inl hr⟩
    · cases hs
      exact ⟨hc, .inl hr⟩
    · rename_i rest _ hd
      cases hs
      exact ⟨hc, ⟨es, hes, hgot' (a := [0]) (Entry.decode_none hd)⟩, hr⟩
    · rename_i e rest _ hd
      cases hs
      obtain ⟨hw, hfr⟩ := Entry.decode_some hd
      split
      · rename_i hk
        exact ManifestInv.held (s := s.consume rest) hc hes (hgot' hw) hfr hk hr
      · rename_i hk
        refine ⟨hc, ?_⟩
        rw [show (s.consume rest).main = .manifest from hm]
        refine ⟨⟨es ++ [e], hes.snoc hfr ?_, ?_⟩, hr⟩
        · rw [answers_other hk, List.append_nil]
          rfl
        · rw [hgot' hw, encodings_append, encodings_singleton]
  case h_3 e parents name hm =>
    rw [hf] at hs
    rw [hm] at hph
    obtain ⟨hq, hr⟩ := hph
    split at hs
    · rename_i hx; cases hx
    · cases hs
      exact .arrive hq hr rfl
    · cases hs
      exact ⟨hc, ⟨hq, rfl⟩, hr⟩
  case h_4 e name dir done component todo hm =>
    have hfs := (hp.early (by rw [hm]; trivial)).fs
    rw [hm] at hph
    obtain ⟨⟨hq, hd⟩, hr⟩ := hph
    have hres : ∀ i, fs0.entry dir component = some i → Posix.resolve fs0.entry cfg.root (done ++ [component]) = some i := by
      intro i hi
      rw [resolve_snoc, hd]
      exact hi
    split at hs
    · rename_i sh d hcall
      cases hs
      rcases call_plain hf hfs hcall with ⟨i, hi, hx⟩ | ⟨err, hx, -⟩
      · cases hi
        exact .arrive (s := { s with sh }) (by simpa using hq) hr (hres _ (Fs.exec_openDir hx).2.2.1)
      · cases hx
    · rename_i sh d next todo hcall
      cases hs
      rcases call_plain hf hfs hcall with ⟨i, hi, hx⟩ | ⟨err, hx, -⟩
      · cases hi
        have hq' : Asking cfg fs0 s.bits s.got e (done ++ [component] ++ next :: todo ++ [name]) := by simpa using hq
        exact ⟨hc, ⟨hq', hres _ (Fs.exec_openDir hx).2.2.1⟩, hr⟩
      · cases hx
    · rename_i todo _ _ sh err hcall
      cases hs
      refine ⟨hc, Asking.answer (s := { s with sh }) hq hr ?_⟩
      rcases call_plain hf hfs hcall with ⟨i, hx, -⟩ | ⟨err', -, hx⟩
      · cases hx
      · -- no directory there, so nothing below it either
        have hnone : Posix.resolve fs0.entry cfg.root (done ++ component :: todo ++ [name]) = none := by
          rw [List.append_assoc, resolve_append, hd]
          show Posix.resolve fs0.entry dir (component :: (todo ++ [name])) = none
          cases hi : fs0.entry dir component with
          | none => rw [resolve_cons, hi]; rfl
          | some i =>
            obtain ⟨m, ps, hps⟩ : ∃ m ps, todo ++ [name] = m :: ps := by cases todo <;> exact ⟨_, _, rfl⟩
            rw [hps]
            exact resolve_stuck hi (openDir_error hn hx hi)
        rw [hq.held, hnone]
  case h_5 e name dir hm =>
    have hfs := (hp.early (by rw [hm]; trivial)).fs
    rw [hm] at hph
    obtain ⟨⟨ps, hq, hd⟩, hr⟩ := hph
    have hres : Posix.resolve fs0.entry cfg.root (ps ++ [name]) = fs0.entry dir name := by
      rw [resolve_snoc, hd]
      rfl
    split at hs
    · rename_i sh i hcall
      cases hs
      refine ⟨hc, Asking.answer (s := { s with sh }) hq hr ?_⟩
      rcases call_plain hf hfs hcall with ⟨i', hi, hx⟩ | ⟨err, hx, -⟩
      · cases hi
        obtain ⟨hfs', hi⟩ := Fs.exec_fstatat hx
        rw [hq.held, hres, hi, hfs']
      · cases hx
    · rename_i sh err hcall
      cases hs
      refine ⟨hc, Asking.answer (s := { s with sh }) hq hr ?_⟩
      rcases call_plain hf hfs hcall with ⟨i, hx, -⟩ | ⟨err', -, hx⟩
      · cases hx
      · rw [hq.held, hres, fstatat_error hn hx]
  case h_6 hm =>
    rw [hf] at hs
    rw [hm] at hph
    obtain ⟨hl, hr⟩ := hph
    cases hs
    refine ⟨hc, ?_⟩
    have hreply : s.reply ++ encodeBitmap s.bits = encodeBitmap s.bits := by rw [hr, List.nil_append]
    show ManifestOk cfg fs0 s.bits s.got (s.reply ++ encodeBitmap s.bits) (if cfg.flows = 1 then .running else .pairing)
    split <;> exact ⟨hl, hreply⟩
  case h_7 hm =>
    rw [hf] at hs
    rw [hm] at hph
    cases hs
    exact ⟨hc, hph⟩
  case h_8 hm =>
    rw [hm] at hph
    split at hs
    · split at hs <;> cases hs
      · exact ⟨hc, .inr hph⟩
      · exact ⟨hc, hph⟩
    · cases hs
  case h_9 hm =>
    rw [hm] at hph
    split at hs <;> cases hs
    · exact ⟨hc, hph⟩
    · exact ⟨hc, .inr hph⟩
  case h_10 hm =>
    rw [hm] at hph
    cases hs
    exact ⟨hc, hph⟩
  case h_11 hm =>
    rw [hf] at hs
    rw [hm] at hph
    cases hs
    refine ⟨hc, hph.1, ?_⟩
    show s.reply ++ [ACK] = encodeBitmap s.bits ++ [ACK]
    rw [hph.2]
  case h_12 => cases hs

/-- The thread that runs `accept_one` meets no failing call. -/
def Unhindered (_ : State) (a : Act) (_ : State) : Prop := ∀ c, a = .main c → c.fault = none

/-- What the thread that runs `accept_one` keeps to itself is as it was. -/
structure Untold (s s' : State) : Prop where
  main : s'.main = s.main
  cache : s'.cache = s.cache
  bits : s'.bits = s.bits
  stats : s'.stats = s.stats
  got : s'.got = s.got
  reply : s'.reply = s.reply

theorem step_told {a : Act} (hst : step cfg s a = some s') : Untold s s' ∨ ∃ c, a = .main c ∧ mainStep cfg c s = some s' := by
  cases a with
  | net i c =>
    obtain ⟨sh', fl', -, -, rfl⟩ := threadStep_some hst
    exact .inl ⟨rfl, rfl, rfl, rfl, rfl, rfl⟩
  | hash i c =>
    rw [show step cfg s (.hash i c) = if cfg.verify then threadStep cfg s i (Flow.hashStep cfg c) else none from rfl] at hst
    split at hst
    · obtain ⟨sh', fl', -, -, rfl⟩ := threadStep_some hst
      exact .inl ⟨rfl, rfl, rfl, rfl, rfl, rfl⟩
    · cases hst
  | writer i c =>
    obtain ⟨sh', fl', -, -, rfl⟩ := threadStep_some hst
    exact .inl ⟨rfl, rfl, rfl, rfl, rfl, rfl⟩
  | main c => exact .inr ⟨c, rfl, hst⟩
  | deliver i bytes =>
    rw [show step cfg s (.deliver i bytes) = if (s.flow i).eof then none else
      some { s with flow := Function.update s.flow i { s.flow i with wire := (s.flow i).wire ++ bytes } } from rfl] at hst
    split at hst <;> cases hst
    exact .inl ⟨rfl, rfl, rfl, rfl, rfl, rfl⟩
  | cut i keep =>
    cases hst
    exact .inl ⟨rfl, rfl, rfl, rfl, rfl, rfl⟩

theorem manifest_inv (hn : Named fs0) (h : Reach (step cfg) Unhindered (.init cfg fs0) s) : ManifestInv cfg fs0 s := by
  refine h.invariant (.init cfg fs0) ?_
  intro s a s' hr ih hst ho
  rcases step_told hst with hu | ⟨c, rfl, hs⟩
  · refine ⟨by rw [hu.cache]; exact ih.cached, ?_⟩
    rw [hu.bits, hu.got, hu.reply, hu.main]
    exact ih.phase
  · exact ih.mainStep hn (phase_ok hr) (ho c rfl) hs

end Thunderflash.Recv
