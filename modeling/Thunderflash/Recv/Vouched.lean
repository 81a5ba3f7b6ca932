/-
The answer to a manifest errs on one side only: a file the receiver says it has is there, whichever of
its calls fail.
-/
import Thunderflash.Recv.Accounts

namespace Thunderflash.Recv

open Codec Posix Lts

variable {cfg : Cfg} {c : Choice} {fs0 : Fs} {s s' : State} {e : Entry} {es : List Entry} {bits : List Bool} {got : Bytes}
  {comps : List Name}

/-- The entries `es` have been read, and of their files those answered with a yes are held. -/
structure Vouched (cfg : Cfg) (fs0 : Fs) (es : List Entry) (bits : List Bool) : Prop where
  framed : ∀ e ∈ es, e.Framed
  held : List.Forall₂ (fun e b => b = true → Holds fs0 cfg.root e) (filesOf es) bits

theorem Vouched.answer (h : Vouched cfg fs0 es bits) (he : e.Framed) (hk : e.kind = .file) {have_ : Bool}
    (hh : have_ = true → Holds fs0 cfg.root e) : Vouched cfg fs0 (es ++ [e]) (bits ++ [have_]) := by
  constructor
  · intro x hx
    rcases List.mem_append.1 hx with hx | hx
    · exact h.framed x hx
    · rw [List.mem_singleton.1 hx]; exact he
  · have hfiles : filesOf (es ++ [e]) = filesOf es ++ [e] := by simp [filesOf, hk]
    rw [hfiles]
    exact List.rel_append h.held (.cons hh .nil)

theorem Vouched.pass (h : Vouched cfg fs0 es bits) (he : e.Framed) (hk : e.kind ≠ .file) : Vouched cfg fs0 (es ++ [e]) bits := by
  constructor
  · intro x hx
    rcases List.mem_append.1 hx with hx | hx
    · exact h.framed x hx
    · rw [List.mem_singleton.1 hx]; exact he
  · have hfiles : filesOf (es ++ [e]) = filesOf es := by simp [filesOf, hk]
    rw [hfiles]
    exact h.held

/-- A File entry has been read, and its sanitized path is being looked up. -/
def Looking (cfg : Cfg) (fs0 : Fs) (bits : List Bool) (got : Bytes) (e : Entry) (comps : List Name) : Prop :=
  ∃ es, Vouched cfg fs0 es bits ∧ got = encodings es ++ e.encode ∧ e.Framed ∧ e.kind = .file ∧ sanitize e.path.bytes = .ok comps

def VouchOk (cfg : Cfg) (fs0 : Fs) (bits : List Bool) (got : Bytes) : MainPc → Prop
  | .openRoot => Vouched cfg fs0 [] bits ∧ got = []
  | .manifest => ∃ es, Vouched cfg fs0 es bits ∧ got = encodings es
  | .chainRoot e parents name => Looking cfg fs0 bits got e (parents ++ [name])
  | .chain e name dir done component todo =>
    Looking cfg fs0 bits got e (done ++ component :: todo ++ [name]) ∧ Posix.resolve fs0.entry cfg.root done = some dir
  | .stat e name dir => ∃ ps, Looking cfg fs0 bits got e (ps ++ [name]) ∧ Posix.resolve fs0.entry cfg.root ps = some dir
  | .answer | .pairing | .running | .flushing _ | .acking | .returned (.ok _) =>
    ∃ es, Vouched cfg fs0 es bits ∧ got = encodings es ++ Entry.terminator
  | .returned (.error _) => True

structure VouchInv (cfg : Cfg) (fs0 : Fs) (s : State) : Prop where
  cached : ∀ ps d, s.cache = some (ps, d) → Posix.resolve fs0.entry cfg.root ps = some d
  phase : VouchOk cfg fs0 s.bits s.got s.main

theorem Looking.answer (h : Looking cfg fs0 s.bits s.got e comps) {have_ : Bool} (hh : have_ = true → Holds fs0 cfg.root e) :
    VouchOk cfg fs0 (s.answer e have_).bits (s.answer e have_).got (s.answer e have_).main := by
  obtain ⟨es, hes, hgot, hf, hk, -⟩ := h
  refine ⟨es ++ [e], hes.answer hf hk hh, ?_⟩
  show s.got = _
  rw [hgot, encodings_append, encodings_singleton]

theorem VouchInv.arrive {parents : List Name} {name : Name} {dir : Nat} (hq : Looking cfg fs0 s.bits s.got e (parents ++ [name]))
    (hd : Posix.resolve fs0.entry cfg.root parents = some dir) : VouchInv cfg fs0 (s.arrive e parents name dir) := by
  refine ⟨fun ps d h => ?_, parents, hq, hd⟩
  obtain ⟨rfl, rfl⟩ := Prod.mk.inj (Option.some.inj h)
  exact hd

theorem VouchInv.held (hc : ∀ ps d, s.cache = some (ps, d) → Posix.resolve fs0.entry cfg.root ps = some d)
    (hes : Vouched cfg fs0 es s.bits) (hgot : s.got = encodings es ++ e.encode) (hf : e.Framed) (hk : e.kind = .file) :
    VouchInv cfg fs0 (s.held e) := by
  unfold State.held
  split
  · refine ⟨hc, es ++ [e], hes.answer hf hk nofun, ?_⟩
    show s.got = _
    rw [hgot, encodings_append, encodings_singleton]
  · rename_i comps hs
    have hne := (sanitize_ok hs).1
    have hq : Looking cfg fs0 s.bits s.got e (comps.dropLast ++ [comps.getLastD []]) := by
      refine ⟨es, hes, hgot, hf, hk, ?_⟩
      rw [hs, List.getLastD_eq_getLast?, List.getLast?_eq_some_getLast hne, Option.getD_some, List.dropLast_concat_getLast]
    split
    · rename_i ps d hcd
      split
      · rename_i heq
        subst heq
        exact ⟨hc, comps.dropLast, hq, hc _ _ hcd⟩
      · exact ⟨hc, hq⟩
    · exact ⟨hc, hq⟩

theorem VouchInv.mainStep (hp : PhaseOk cfg fs0 s s.main) (h : VouchInv cfg fs0 s) (hs : mainStep cfg c s = some s') :
    VouchInv cfg fs0 s' := by
  obtain ⟨hc, hph⟩ := h
  unfold Recv.mainStep at hs
  split at hs
  case h_1 hm =>
    rw [hm] at hph
    split at hs <;> cases hs
    · exact ⟨hc, trivial⟩
    · exact ⟨hc, [], hph.1, hph.2⟩
  case h_2 hm =>
    rw [hm] at hph
    obtain ⟨es, hes, hgot⟩ := hph
    have hgot' : ∀ {a rest : Bytes}, (s.flow 0).wire = a ++ rest → (s.consume rest).got = encodings es ++ a := by
      intro a rest hw
      rw [(consume_stream s hw).2, hgot]
    split at hs
    · cases hs; exact ⟨hc, trivial⟩
    · split at hs <;> cases hs
      exact ⟨hc, trivial⟩
    · cases hs; exact ⟨hc, trivial⟩
    · rename_i rest _ hd
      cases hs
      exact ⟨hc, es, hes, hgot' (a := [0]) (Entry.decode_none hd)⟩
    · rename_i e rest _ hd
      cases hs
      obtain ⟨hw, hfr⟩ := Entry.decode_some hd
      split
      · rename_i hk
        exact VouchInv.held (s := s.consume rest) hc hes (hgot' hw) hfr hk
      · rename_i hk
        refine ⟨hc, ?_⟩
        rw [show (s.consume rest).main = .manifest from hm]
        refine ⟨es ++ [e], hes.pass hfr hk, ?_⟩
        rw [hgot' hw, encodings_append, encodings_singleton]
  case h_3 e parents name hm =>
    rw [hm] at hph
    split at hs <;> cases hs
    · exact ⟨hc, hph.answer nofun⟩
    · exact .arrive hph rfl
    · exact ⟨hc, hph, rfl⟩
  case h_4 e name dir done component todo hm =>
    have hfs := (hp.early (by rw [hm]; trivial)).fs
    rw [hm] at hph
    obtain ⟨hq, hd⟩ := hph
    have hres : ∀ {sh i}, call cfg c s.sh (.openDir dir component) = (sh, .ok i) →
        Posix.resolve fs0.entry cfg.root (done ++ [component]) = some i := by
      intro sh i hcall
      have hopen := (Fs.exec_openDir (call_did hcall).exec).2.2.1
      rw [hfs] at hopen
      rw [resolve_snoc, hd]
      exact hopen
    split at hs
    · rename_i sh d hcall
      cases hs
      exact .arrive (s := { s with sh }) (by simpa using hq) (hres hcall)
    · rename_i sh d next todo hcall
      cases hs
      have hq' : Looking cfg fs0 s.bits s.got e (done ++ [component] ++ next :: todo ++ [name]) := by simpa using hq
      exact ⟨hc, hq', hres hcall⟩
    · rename_i sh err hcall
      cases hs
      exact ⟨hc, Looking.answer (s := { s with sh }) hq nofun⟩
  case h_5 e name dir hm =>
    have hfs := (hp.early (by rw [hm]; trivial)).fs
    rw [hm] at hph
    obtain ⟨ps, hq, hd⟩ := hph
    split at hs
    · rename_i sh i hcall
      cases hs
      refine ⟨hc, Looking.answer (s := { s with sh }) hq fun hmatch => ?_⟩
      -- what was looked at is what stands at the path
      obtain ⟨hsame, hi⟩ := Fs.exec_fstatat (call_did hcall).exec
      obtain ⟨b, hl, hlen, hdate⟩ := matches_iff.1 hmatch
      obtain ⟨es, -, -, -, -, hsan⟩ := hq
      rw [hsame, hfs] at hl hdate
      rw [hfs] at hi
      refine ⟨_, i, b, hsan, ?_, hl, hlen, hdate⟩
      rw [resolve_snoc, hd]
      exact hi
    · cases hs
      rename_i sh err hcall
      exact ⟨hc, Looking.answer (s := { s with sh }) hq nofun⟩
  case h_6 hm =>
    rw [hm] at hph
    split at hs <;> cases hs
    · exact ⟨hc, trivial⟩
    · refine ⟨hc, ?_⟩
      show VouchOk cfg fs0 s.bits s.got (if cfg.flows = 1 then .running else .pairing)
      split <;> exact hph
  case h_7 hm =>
    rw [hm] at hph
    split at hs <;> cases hs
    · exact ⟨hc, trivial⟩
    · exact ⟨hc, hph⟩
  case h_8 hm =>
    rw [hm] at hph
    split at hs
    · split at hs <;> cases hs
      · exact ⟨hc, trivial⟩
      · exact ⟨hc, hph⟩
    · cases hs
  case h_9 hm =>
    rw [hm] at hph
    split at hs <;> cases hs
    · exact ⟨hc, hph⟩
    · exact ⟨hc, trivial⟩
  case h_10 hm =>
    rw [hm] at hph
    cases hs
    exact ⟨hc, hph⟩
  case h_11 hm =>
    rw [hm] at hph
    split at hs <;> cases hs
    · exact ⟨hc, trivial⟩
    · exact ⟨hc, hph⟩
  case h_12 => cases hs

theorem vouch_inv {ok : State → Act → State → Prop} (h : Reach (step cfg) ok (.init cfg fs0) s) : VouchInv cfg fs0 s := by
  refine h.invariant (I := VouchInv cfg fs0) ?_ ?_
  · exact ⟨nofun, ⟨nofun, .nil⟩, rfl⟩
  · intro s a s' hr ih hst _
    rcases step_told hst with hu | ⟨c, rfl, hs⟩
    · refine ⟨by rw [hu.cache]; exact ih.cached, ?_⟩
      rw [hu.bits, hu.got, hu.main]
      exact ih.phase
    · exact ih.mainStep (phase_ok hr) hs

end Thunderflash.Recv
