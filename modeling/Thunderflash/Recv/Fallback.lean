/-
Writing in place: which names are too long for a scratch name, and what a failing transfer of such
a file does to the one that was there.
-/
import Thunderflash.Recv.Atomic

namespace Thunderflash.Recv

open Codec Posix Fs Lts

variable {cfg : Cfg} {s : State} {fs0 : Fs} {p : List Name} {n : Name} {sh sh' : Shared} {fl fl' : Flow} {c : Choice}

/-- A file has been created under its own name `n`. -/
def WritesInPlace (s : State) (n : Name) : Prop :=
  ∃ k t, t ∈ (s.flow k).log.born ∧ t.scratch = false ∧ t.target = n

/-- The entries of `s` name path `p` as a file only, and nothing below it. -/
structure SentAsFile (s : State) (p : List Name) : Prop where
  kind : ∀ {k x}, x ∈ (s.flow k).log.heard → x.2 = p → x.1.kind = .file
  below : ∀ {k x n qs}, x ∈ (s.flow k).log.heard → x.2 ≠ p ++ n :: qs
  drawn : ∀ {k t}, t ∈ (s.flow k).log.scratches → t.name ≠ p.getLastD []

/-- A file that stood under name `n` survives every session that sends nothing else for its path,
or makes way for a complete one. -/
def Spared (n : Name) : Prop :=
  ∀ (cfg : Cfg) (fs0 : Fs) (s : State) (p : List Name), fs0.DirTree cfg.root → Reachable cfg fs0 s → Drawn s →
    p.getLastD [] = n → SentAsFile s p → Unlinked cfg fs0 s p →
    ∀ i b, resolve fs0.entry cfg.root p = some i → fs0.leaf i = some (.file b) →
      (resolve s.sh.fs.entry cfg.root p = some i ∧ s.sh.fs.leaf i = some (.file b)) ∨ Complete cfg s p

/-- A path of one name that an entry can have. -/
structure FileName (n : Name) : Prop where
  text : utf8 n = true
  whole : sanitize n = .ok [n]

/-! ## Short names -/

theorem SentAsFile.fileOnly (h : SentAsFile s p) (hs : (p.getLastD []).length + 21 ≤ NAME_MAX) : FileOnly s p :=
  ⟨h.kind, h.below, hs, h.drawn⟩

theorem not_in_place (h : Reachable cfg fs0 s) (hn : n.length + 21 ≤ NAME_MAX) : ¬ WritesInPlace s n := by
  rintro ⟨k, t, ht, hs, rfl⟩
  have hlong := (flow_inv h k).long ht hs
  have hname : t.target = t.name := by
    have hnone : t.finalName = none := by simpa [InFlight.scratch] using hs
    rw [InFlight.target, hnone, Option.getD_none]
  rw [hname] at hn
  omega

theorem spared (hn : n.length + 21 ≤ NAME_MAX) : Spared n := by
  intro cfg fs0 s p ht h hd hp hsent hu i b hi hb
  subst hp
  rcases (known ht h hd).atomic ht h (hsent.fileOnly hn) hu with hk | hc
  · refine .inl ⟨hk.place.trans hi, ?_⟩
    have hfile : fs0.leaf i ≠ some .dir := by rw [hb]; nofun
    rw [(leaf_of_inode (hk.inode hi hfile)).1, hb]
  · exact .inr hc

/-! ## Long names -/

/-- Some session has come to where flow 0 and what the threads share are these. -/
def Stands (cfg : Cfg) (fs0 : Fs) (sh : Shared) (fl : Flow) : Prop :=
  ∃ s, Reachable cfg fs0 s ∧ s.main = .running ∧ s.sh = sh ∧ s.flow 0 = fl

theorem Stands.put (h : Stands cfg fs0 sh fl) {a : Act} {x : Shared × Flow}
    (hs : ∀ s : State, s.main = .running → s.sh = sh → s.flow 0 = fl → step cfg s a = some (s.put 0 x)) :
    Stands cfg fs0 x.1 x.2 := by
  obtain ⟨s, hr, hm, hsh, hfl⟩ := h
  exact ⟨s.put 0 x, .step hr (hs s hm hsh hfl) trivial, hm, rfl, by simp [State.put]⟩

theorem Stands.thread (h : Stands cfg fs0 sh fl) (hf : 0 < cfg.flows) {a : Act}
    {f : Shared → Flow → Option (Shared × Flow)} (ha : ∀ s, step cfg s a = threadStep cfg s 0 f)
    (hs : f sh fl = some (sh', fl')) : Stands cfg fs0 sh' fl' := by
  refine h.put (a := a) (x := (sh', fl')) fun s hm hsh hfl => ?_
  rw [ha, threadStep, if_pos ⟨hm, hf⟩, hsh, hfl, hs]
  rfl

theorem Stands.net (h : Stands cfg fs0 sh fl) (hf : 0 < cfg.flows) (c : Choice)
    (hs : fl.netStep cfg c sh = some (sh', fl')) : Stands cfg fs0 sh' fl' :=
  h.thread hf (a := .net 0 c) (fun _ => rfl) hs

theorem Stands.writer (h : Stands cfg fs0 sh fl) (hf : 0 < cfg.flows) (c : Choice)
    (hs : fl.writerStep cfg c sh = some (sh', fl')) : Stands cfg fs0 sh' fl' :=
  h.thread hf (a := .writer 0 c) (fun _ => rfl) hs

theorem Stands.cut (h : Stands cfg fs0 sh fl) (keep : Nat) :
    Stands cfg fs0 sh { fl with wire := fl.wire.take keep, eof := true } := by
  refine h.put (a := .cut 0 keep) (x := (sh, { fl with wire := fl.wire.take keep, eof := true })) fun s _ hsh hfl => ?_
  rw [← hsh, ← hfl]
  rfl

/-! ## A transfer that fails -/

/-- A file of two bytes under name `n`. -/
def stood (n : Name) : Fs := ⟨[⟨.dir [(n, 1)], 0o755, 0⟩, ⟨.file [1, 2], 0o644, 0⟩]⟩

/-- The same after the file was opened again. -/
def truncated (n : Name) : Fs := ⟨[⟨.dir [(n, 1)], 0o755, 0⟩, ⟨.file [], 0o644, 0⟩]⟩

/-- One byte is announced for the name. -/
def announced (hn : FileName n) : Entry := entryOf .file ⟨n, hn.text⟩ 1

def announcedJob (hn : FileName n) : Job := ⟨announced hn, [], n, 0⟩

/-- The file created in place for it. -/
def placed (n : Name) : InFlight := ⟨1, 0, n, none, 0, 0o644, []⟩

/-- The flow that has read the header, at a stage of the entry. -/
def reading (hn : FileName n) (st : Stage) : Flow :=
  { Flow.init single with
    net := .at (announcedJob hn) st
    cache := some ([], 0)
    log := { Log.init with heard := [(announced hn, [n])], got := (announced hn).encode } }

theorem reading_walked (hn : FileName n) (hhi : n.length ≤ NAME_MAX) :
    Stands single (stood n) ⟨stood n, [], 0, []⟩ (reading hn (.tempCreate 3)) := by
  have hstart : Stands single (stood n) ⟨stood n, [], 0, []⟩
      { Flow.init single with wire := (announced hn).encode, net := .decode } := by
    let acts : List Act := opening single ++ [.deliver 0 (announced hn).encode, .net 0 plain]
    exact ⟨_, .of_run (rfl : run (step single) (.init single (stood n)) acts = _), rfl, rfl, rfl⟩
  have hframed : (announced hn).Framed :=
    ⟨nofun, by show n.length < 65536; simp only [NAME_MAX] at hhi; omega, nofun⟩
  have hdecode : Entry.decode (announced hn).encode = .ok (some (announced hn)) [] := by
    rw [← List.append_nil (announced hn).encode, Entry.decode_encode hframed]
  have hread : Flow.netStep single plain ⟨stood n, [], 0, []⟩
      { Flow.init single with wire := (announced hn).encode, net := .decode } =
      some (⟨stood n, [], 0, []⟩, { reading hn .walkRoot with cache := none }) := by
    unfold Flow.netStep
    simp only [Flow.netRequest, Flow.netLocal, hdecode, plain]
    unfold Flow.start
    rw [show sanitize (announced hn).path.bytes = .ok [n] from hn.whole]
    simp [Flow.consume, Flow.init, Flow.goto, reading, single, Log.init, announcedJob]
  exact (hstart.net (by decide) plain hread).net (by decide) plain rfl

/-- The scratch name does not fit, so the file that is there is opened and emptied. -/
theorem reading_placed (hn : FileName n) (hlo : NAME_MAX < n.length + 21) (hhi : n.length ≤ NAME_MAX) :
    Stands single (stood n) ⟨truncated n, [], 0, [(.openTrunc 0 n ((announced hn).mode ||| 0o600), 1)]⟩
      ((reading hn .walkRoot).logBorn (placed n) |>.goto (announcedJob hn) (.sendBegin (placed n))) := by
  have hlong : call single plain ⟨stood n, [], 0, []⟩
      (.openExcl 0 (scratchName n 0) ((announced hn).mode ||| 0o600)) = (⟨stood n, [], 0, []⟩, .error .ENAMETOOLONG) := by
    have hcheck : (stood n).checkAt 0 (scratchName n 0) = .error .ENAMETOOLONG := by
      unfold checkAt
      rw [if_pos (by rw [Flow.length_scratchName]; omega)]
    simp only [call, plain, exec, hcheck]
    rfl
  have hopen : call single plain ⟨stood n, [], 0, []⟩ (.openTrunc 0 n ((announced hn).mode ||| 0o600)) =
      (⟨truncated n, [], 0, [(.openTrunc 0 n ((announced hn).mode ||| 0o600), 1)]⟩, .ok 1) := by
    have hcheck : (stood n).checkAt 0 n = .ok () := by
      unfold checkAt
      rw [if_neg (by omega)]
      rfl
    have hentry : (stood n).entry 0 n = some 1 := by
      show List.lookup n [(n, 1)] = some 1
      simp
    simp only [call, plain, exec, hcheck, hentry]
    rfl
  have h1 : (reading hn (.tempCreate 3)).netStep single plain ⟨stood n, [], 0, []⟩ =
      some (⟨stood n, [], 0, []⟩, reading hn (.placeCreate false)) := by
    have hreq : Flow.netRequest single plain (reading hn (.tempCreate 3)).net =
        some (.openExcl 0 (scratchName n 0) ((announced hn).mode ||| 0o600)) := rfl
    unfold Flow.netStep
    rw [hreq]
    simp only [hlong]
    rfl
  have h2 : (reading hn (.placeCreate false)).netStep single plain ⟨stood n, [], 0, []⟩ =
      some (⟨truncated n, [], 0, [(.openTrunc 0 n ((announced hn).mode ||| 0o600), 1)]⟩,
        ((reading hn .walkRoot).logBorn (placed n)).goto (announcedJob hn) (.sendBegin (placed n))) := by
    have hreq : Flow.netRequest single plain (reading hn (.placeCreate false)).net =
        some (.openTrunc 0 n ((announced hn).mode ||| 0o600)) := rfl
    unfold Flow.netStep
    rw [hreq]
    simp only [hopen]
    rfl
  exact ((reading_walked hn hhi).net (by decide) plain h1).net (by decide) plain h2

/-- The stream ends before the payload, and the drop of the file removes its name. -/
theorem reading_removed (hn : FileName n) (hlo : NAME_MAX < n.length + 21) (hhi : n.length ≤ NAME_MAX) :
    ∃ s e, Reachable single (stood n) s ∧ s.main = .returned (.error e) ∧
      (s.flow 0).log.heard = [(announced hn, [n])] ∧ (s.flow 0).log.got = (announced hn).encode ∧
      (s.flow 0).log.born = [placed n] ∧ s.sh.fs.entry 0 n = none := by
  have hbegun := ((reading_placed hn hlo hhi).net (by decide) plain rfl).net (by decide) plain rfl
  have hfailed := (hbegun.cut 0).net (by decide) plain rfl
  have hdropped := (hfailed.writer (by decide) plain rfl).writer (by decide) plain rfl
  have hremove : (call single plain ⟨truncated n, [], 0, [(.openTrunc 0 n ((announced hn).mode ||| 0o600), 1)]⟩
      (.unlinkat 0 n)).1.fs = (truncated n).unlink 0 n 0 := by
    have hcheck : (truncated n).checkAt 0 n = .ok () := by
      unfold checkAt
      rw [if_neg (by omega)]
      rfl
    have hentry : (truncated n).entry 0 n = some 1 := by
      show List.lookup n [(n, 1)] = some 1
      simp
    simp only [call, plain, exec, hcheck, hentry]
    rfl
  obtain ⟨s, hr, hm, hsh, hfl⟩ := hdropped.writer (by decide) plain rfl
  have hresult : (s.flow 0).result single = some (.error (.truncated (announced hn).path 1 0)) := by
    rw [hfl]
    rfl
  have hreturn : step single s (.main plain) = some (s.fail (.truncated (announced hn).path 1 0)) := by
    have hall : ∀ i < single.flows, ((s.flow i).result single).isSome := by
      intro i hi
      obtain rfl : i = 0 := by simpa [single] using hi
      rw [hresult]
      rfl
    have hfirst : firstError single s = some (.truncated (announced hn).path 1 0) := by
      show [0].findSome? _ = _
      rw [List.findSome?_cons, hresult]
    simp only [step, mainStep, hm]
    rw [if_pos hall, hfirst]
  refine ⟨_, _, .step hr hreturn trivial, rfl, ?_, ?_, ?_, ?_⟩
  · show (s.flow 0).log.heard = _
    rw [hfl]
    rfl
  · show (s.flow 0).log.got = _
    rw [hfl]
    rfl
  · show (s.flow 0).log.born = _
    rw [hfl]
    rfl
  · show s.sh.fs.entry 0 n = none
    rw [show s.sh.fs = (truncated n).unlink 0 n 0 from (congrArg Shared.fs hsh).trans hremove]
    show List.lookup n ([(n, 1)].filter fun e => e.1 != n) = none
    simp

/-- A short transfer loses the file, and nothing takes its place. -/
theorem lost_in_place (hn : FileName n) (hlo : NAME_MAX < n.length + 21) (hhi : n.length ≤ NAME_MAX) :
    (∃ s, Reachable single (stood n) s ∧ WritesInPlace s n) ∧ ¬ Spared n := by
  obtain ⟨s, e, hr, -, hheard, hgot, hborn, hgone⟩ := reading_removed hn hlo hhi
  have hidle : ∀ k, (s.flow k).log.heard = [] ∧ (s.flow k).log.born = [] ∧ (s.flow k).log.got = [] ∨ k = 0 := by
    intro k
    by_cases hk : k < 1
    · exact .inr (by omega)
    · rw [log_idle hr (by show 1 ≤ k; omega)]
      exact .inl ⟨rfl, rfl, rfl⟩
  have hnone : ∀ k, (s.flow k).log.scratches = [] := by
    intro k
    rcases hidle k with ⟨-, hb, -⟩ | rfl
    · rw [Log.scratches, hb]; rfl
    · rw [Log.scratches, hborn]; rfl
  have hone : ∀ {k x}, x ∈ (s.flow k).log.heard → x = (announced hn, [n]) := by
    intro k x hx
    rcases hidle k with ⟨hb, -⟩ | rfl
    · rw [hb] at hx; cases hx
    · rw [hheard] at hx; exact List.mem_singleton.1 hx
  refine ⟨⟨s, hr, 0, placed n, by rw [hborn]; exact List.mem_singleton_self _, rfl, rfl⟩, fun hspared => ?_⟩
  have hstood : resolve (stood n).entry single.root [n] = some 1 := by
    show (List.lookup n [(n, 1)]).bind _ = some 1
    simp
  have hsent : SentAsFile s [n] := by
    refine ⟨fun hx _ => ?_, fun hx => ?_, fun ht => ?_⟩
    · rw [hone hx]; rfl
    · rw [hone hx]; simp
    · rw [hnone] at ht; cases ht
  have htree : (stood n).DirTree single.root := .of_flat rfl rfl
  have hlost : resolve s.sh.fs.entry single.root [n] = none := by
    rw [resolve_cons, show s.sh.fs.entry single.root n = none from hgone]
    rfl
  have hdrawn : Drawn s := by
    refine ⟨fun {i k t x} ht _ => ?_, fun i => by simp [hnone], fun {i k x} hx _ => by simp [hnone] at hx⟩
    rw [hnone] at ht; cases ht
  have hlinks : Unlinked single (stood n) s [n] := fun hx _ _ => by rw [hone hx]
  rcases hspared single (stood n) s [n] htree hr hdrawn rfl hsent hlinks 1 [1, 2] hstood rfl
    with ⟨hkept, -⟩ | ⟨k, fr, i, -, -, -, hi, -⟩
  · rw [hlost] at hkept; cases hkept
  · rw [hlost] at hi; cases hi

/-- The README's bound on the names that are replaced atomically is the right one up to 234 bytes:
such a name is never written in place and its file survives, while every name from 235 to the 243
bytes it gives can be written in place and its file lost. -/
theorem in_place_bound (hn : FileName n) (hlen : n.length ≤ 243) :
    ((∀ cfg fs0 s, Reachable cfg fs0 s → ¬ WritesInPlace s n) ↔ n.length ≤ 234) ∧
    (Spared n ↔ n.length ≤ 234) := by
  have hlong : ¬ n.length ≤ 234 → (∃ s, Reachable single (stood n) s ∧ WritesInPlace s n) ∧ ¬ Spared n := by
    intro h
    apply lost_in_place hn <;> simp only [NAME_MAX] <;> omega
  refine ⟨⟨fun h => ?_, fun h cfg fs0 s hs => ?_⟩, ⟨fun h => ?_, fun h => ?_⟩⟩
  · by_contra hle
    obtain ⟨⟨s, hs, hw⟩, -⟩ := hlong hle
    exact h _ _ s hs hw
  · apply not_in_place hs
    simp only [NAME_MAX]
    omega
  · by_contra hle
    exact (hlong hle).2 h
  · apply spared
    simp only [NAME_MAX]
    omega

theorem in_place_bound_longest :
    ((∀ cfg fs0 s, Reachable cfg fs0 s → ¬ WritesInPlace s (List.replicate 243 97)) ↔
      (List.replicate 243 (97 : UInt8)).length ≤ 234) ∧
    (Spared (List.replicate 243 97) ↔ (List.replicate 243 (97 : UInt8)).length ≤ 234) :=
  in_place_bound ⟨by decide +kernel, by decide +kernel⟩ List.length_replicate.le

/-- A name of 243 bytes, the longest that the README says is replaced atomically, is written in
place, and its file can be lost. -/
theorem lost_at_bound : ¬ ∀ n : Name, n.length ≤ 243 →
    (∀ cfg fs0 s, Reachable cfg fs0 s → ¬ WritesInPlace s n) ∧ Spared n := by
  intro h
  have hlen : (List.replicate 243 (97 : UInt8)).length = 243 := List.length_replicate
  have hlost := lost_in_place (n := List.replicate 243 97) ⟨by decide +kernel, by decide +kernel⟩
    (by rw [hlen]; decide) (by rw [hlen]; decide)
  exact hlost.2 (h _ hlen.le).2

end Thunderflash.Recv
