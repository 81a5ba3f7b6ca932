/-
What a flow's log means: the frames its wire carried, and what the writer's messages amount to.
-/
import Thunderflash.Recv.Session
import Thunderflash.Lts.Pipe

namespace Thunderflash.Recv

open Codec Posix Lts

/-! ## Frames -/

/-- A frame as it stood on the wire. -/
def Frame.encode (fr : Frame) : Bytes := fr.entry.encode ++ (fr.payload ++ fr.trailer)

def encodeAll (frs : List Frame) : Bytes := (frs.map Frame.encode).flatten

@[simp] theorem encodeAll_nil : encodeAll [] = [] := rfl

@[simp] theorem encodeAll_append (a b : List Frame) : encodeAll (a ++ b) = encodeAll a ++ encodeAll b := by
  simp [encodeAll]

@[simp] theorem encodeAll_cons (fr : Frame) (frs : List Frame) :
    encodeAll (fr :: frs) = fr.encode ++ encodeAll frs := rfl

/-- The digest that follows a payload on the wire of this session. -/
def digestOf (cfg : Cfg) (payload : Bytes) : Bytes := if cfg.verify then (cfg.blake3 payload).bytes else []

/-- A complete frame: an acceptable path, and for files and symlinks exactly the announced payload,
followed by its digest when the session verifies. -/
structure Frame.Whole (cfg : Cfg) (fr : Frame) : Prop where
  framed : fr.entry.Framed
  path : sanitize fr.entry.path.bytes = .ok fr.comps
  payload : fr.payload.length = if fr.entry.kind = .dir then 0 else fr.entry.size.toNat
  trailer : fr.trailer = if fr.entry.kind = .dir then [] else digestOf cfg fr.payload

/-- The stream `got` carries `fr` between two frame boundaries. -/
def Carries (cfg : Cfg) (got : Bytes) (fr : Frame) : Prop :=
  fr.Whole cfg ∧ ∃ before after, (∀ x ∈ before, x.Whole cfg) ∧ got = encodeAll before ++ (fr.encode ++ after)

theorem Carries.append {cfg : Cfg} {got : Bytes} {fr : Frame} (h : Carries cfg got fr) (more : Bytes) :
    Carries cfg (got ++ more) fr := by
  obtain ⟨hw, before, after, hb, rfl⟩ := h
  exact ⟨hw, before, after ++ more, hb, by simp⟩

theorem Carries.of_mem {cfg : Cfg} {frs : List Frame} {tail : Bytes} {fr : Frame} (hw : ∀ x ∈ frs, x.Whole cfg)
    (h : fr ∈ frs) : Carries cfg (encodeAll frs ++ tail) fr := by
  obtain ⟨before, after, rfl⟩ := List.append_of_mem h
  exact ⟨hw fr h, before, encodeAll after ++ tail, fun x hx => hw x (by simp [hx]), by simp⟩

/-- A stream starts with one frame at most. -/
theorem Frame.Whole.inj {cfg : Cfg} {fr fr' : Frame} {a b : Bytes} (h : fr.Whole cfg) (h' : fr'.Whole cfg)
    (he : fr.encode ++ a = fr'.encode ++ b) : fr = fr' ∧ a = b := by
  obtain ⟨entry, comps, payload, trailer⟩ := fr
  obtain ⟨entry', comps', payload', trailer'⟩ := fr'
  simp only [Frame.encode, List.append_assoc] at he
  have hd := Entry.decode_encode h.framed (payload ++ (trailer ++ a))
  rw [he, Entry.decode_encode h'.framed] at hd
  injection hd with hentry hrest
  cases hentry
  have hcomps : comps' = comps := by have := h'.path; rw [h.path] at this; cases this; rfl
  subst hcomps
  obtain ⟨rfl, htail⟩ := List.append_inj hrest (h'.payload.trans h.payload.symm)
  have htr : trailer' = trailer := h'.trailer.trans h.trailer.symm
  subst htr
  exact ⟨rfl, (List.append_cancel_left htail).symm⟩

/-- A stream of whole frames carries these and no others. -/
theorem Carries.mem {cfg : Cfg} : ∀ {frs : List Frame} {fr : Frame}, (∀ x ∈ frs, x.Whole cfg) →
    Carries cfg (encodeAll frs) fr → fr ∈ frs
  | [], fr, _, ⟨_, before, after, _, he⟩ => by
    have := congrArg List.length he
    simp [Frame.encode, Entry.encode] at this
  | x :: frs, fr, hw, ⟨h, before, after, hb, he⟩ => by
    have hx := hw x (by simp)
    cases before with
    | nil =>
      obtain ⟨rfl, -⟩ := hx.inj h (by simpa using he)
      simp
    | cons y before =>
      obtain ⟨-, he⟩ := hx.inj (hb y (by simp)) (by simpa using he)
      exact List.mem_cons_of_mem _ (mem (fun z hz => hw z (by simp [hz])) ⟨h, before, after, fun z hz => hb z (by simp [hz]), he⟩)

/-! ## Messages -/

/-- The files a list of messages completes, with their contents, and the one it leaves open. -/
structure Tally where
  files : List (InFlight × Bytes)
  current : Option (InFlight × Bytes)
  deriving DecidableEq

def Tally.next (x : Tally) : Msg → Tally
  | .begin t => { x with current := some (t, []) }
  | .data bytes => { x with current := x.current.map fun f => (f.1, f.2 ++ bytes) }
  | .endFile =>
    match x.current with
    | some f => ⟨x.files ++ [f], none⟩
    | none => x
  | .finish => x

def tally (ms : List Msg) : Tally := ms.foldl Tally.next ⟨[], none⟩

@[simp] theorem tally_nil : tally [] = ⟨[], none⟩ := rfl

@[simp] theorem tally_snoc (ms : List Msg) (m : Msg) : tally (ms ++ [m]) = (tally ms).next m := by
  simp [tally]

theorem files_next (x : Tally) (m : Msg) : x.files <+: (x.next m).files := by
  cases m with
  | endFile =>
    unfold Tally.next
    cases x.current with
    | none => exact List.prefix_refl _
    | some f => exact List.prefix_append ..
  | _ => exact List.prefix_refl _

theorem files_mono {a b : List Msg} (h : a <+: b) : (tally a).files <+: (tally b).files := by
  obtain ⟨c, rfl⟩ := h
  induction c using List.reverseRecOn with
  | nil => simp
  | append_singleton c m ih =>
    rw [← List.append_assoc, tally_snoc]
    exact ih.trans (files_next _ _)

/-- What the stage between the net thread and the writer does with a message: hash the data and
keep `Finish` to itself when the session verifies, nothing otherwise. -/
def stage (cfg : Cfg) (hasher : Bytes) (m : Msg) : Bytes × Option Msg :=
  if cfg.verify then
    match m with
    | .data bytes => (hasher ++ bytes, some m)
    | .finish => ([], none)
    | _ => (hasher, some m)
  else (hasher, some m)

/-- The hasher after all of `sent`, and what of it goes to the writer. -/
def sunk (cfg : Cfg) (sent : List Msg) : Bytes × List Msg := through (stage cfg) [] sent

theorem sunk_snoc (cfg : Cfg) (sent : List Msg) (m : Msg) : sunk cfg (sent ++ [m]) =
    ((stage cfg (sunk cfg sent).1 m).1, (sunk cfg sent).2 ++ (stage cfg (sunk cfg sent).1 m).2.toList) :=
  through_snoc ..

theorem tally_sunk (cfg : Cfg) (sent : List Msg) : tally (sunk cfg sent).2 = tally sent := by
  induction sent using List.reverseRecOn with
  | nil => rfl
  | append_singleton ms m ih =>
    rw [sunk_snoc, tally_snoc, ← ih]
    unfold stage
    split
    · cases m <;> simp [Tally.next]
    · simp

theorem sunk_of_not_verify {cfg : Cfg} (h : cfg.verify = false) (sent : List Msg) : sunk cfg sent = ([], sent) := by
  induction sent using List.reverseRecOn with
  | nil => rfl
  | append_singleton ms m ih => rw [sunk_snoc, ih]; simp [stage, h]

/-- A completed file is the one a frame of the stream describes. -/
structure Delivered (f : InFlight × Bytes) (fr : Frame) : Prop where
  payload : f.2 = fr.payload
  path : f.1.path = fr.comps
  mtime : f.1.mtime = fr.entry.mtime
  mode : f.1.mode = fr.entry.mode

def Frame.isFile (fr : Frame) : Bool := fr.entry.kind == .file

end Thunderflash.Recv
