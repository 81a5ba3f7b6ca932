/-
The staging buffer in front of a socket: small reads are served from the stage, large ones go past
it when it is drained, and either way a reader gets the stream as it is.
-/
import Thunderflash.Codec.Bytes
import Thunderflash.Lts.Run

namespace Thunderflash.Recv

open Codec Lts

def STAGE_CAP : Nat := 64 * 1024

/-- A socket behind a small staging buffer. -/
structure Staged where
  stage : Bytes
  off : Nat
  end_ : Nat
  deriving DecidableEq

/-- What the socket does when it is asked. -/
inductive SockRead
  | fails (code : Nat)
  | gives (n : Nat)
  deriving DecidableEq, Repr

/-- What a read comes to. -/
inductive Got
  | bytes (bs : Bytes)
  | failed (code : Nat)
  /-- A slice was out of range, or a subtraction below zero. -/
  | panicked
  deriving DecidableEq, Repr

/-! ## The code -/

/-- A read of the socket into a buffer of `len` bytes: an error, or some of the bytes to come, none
of them only when there are none or there is no room. -/
def sockRead (len : Nat) (c : SockRead) (unread : Bytes) : Option (Except Nat Bytes × Bytes) :=
  match c with
  | .fails code => some (.error code, unread)
  | .gives n =>
    if n ≤ len ∧ n ≤ unread.length ∧ (n = 0 → len = 0 ∨ unread = []) then
      some (.ok (unread.take n), unread.drop n)
    else none

/-- `&bs[a..b]`. -/
def slice (bs : Bytes) (a b : Nat) : Option Bytes :=
  if a ≤ b ∧ b ≤ bs.length then some ((bs.take b).drop a) else none

namespace Staged

def new : Staged := ⟨List.replicate STAGE_CAP 0, 0, 0⟩

/-- Copy from the stage. -/
def serve (len : Nat) (st : Staged) : Got × Staged :=
  if st.end_ < st.off then (.panicked, st)
  else
    match slice st.stage st.off (st.off + min len (st.end_ - st.off)) with
    | none => (.panicked, st)
    | some bs => (.bytes bs, { st with off := st.off + min len (st.end_ - st.off) })

/-- `Staged::read` into a buffer of `len` bytes. -/
def read (len : Nat) (c : SockRead) (st : Staged) (unread : Bytes) : Option ((Got × Staged) × Bytes) :=
  if st.off = st.end_ then
    if STAGE_CAP ≤ len then
      -- drained and big: the socket, straight into the caller's buffer
      (sockRead len c unread).map fun
        | (.error code, unread) => ((.failed code, st), unread)
        | (.ok bs, unread) => ((.bytes bs, st), unread)
    else
      (sockRead st.stage.length c unread).map fun
        | (.error code, unread) => ((.failed code, st), unread)
        | (.ok bs, unread) => (serve len ⟨bs ++ st.stage.drop bs.length, 0, bs.length⟩, unread)
  else some (serve len st, unread)

/-! ## One read -/

/-- `stage[off..end]`. -/
def held (st : Staged) : Bytes := (st.stage.take st.end_).drop st.off

/-- The two indices are in order and within the buffer. -/
structure Ok (st : Staged) : Prop where
  order : st.off ≤ st.end_
  cap : st.end_ ≤ STAGE_CAP
  size : st.stage.length = STAGE_CAP

theorem Ok.new : Ok .new := ⟨le_rfl, Nat.zero_le _, List.length_replicate⟩

theorem Ok.length_held {st : Staged} (h : st.Ok) : st.held.length = st.end_ - st.off := by
  rw [held, List.length_drop, List.length_take, h.size, Nat.min_eq_left h.cap]

theorem held_drained {st : Staged} (h : st.off = st.end_) : st.held = [] := by
  rw [held, h, List.drop_eq_nil_iff, List.length_take]
  exact Nat.min_le_left _ _

/-- Serving takes the first bytes held, as many as there are and fit. -/
theorem serve_spec {st : Staged} (h : st.Ok) (len : Nat) :
    ∃ st', serve len st = (.bytes (st.held.take len), st') ∧ st'.Ok ∧ st'.held = st.held.drop len := by
  have horder := h.order
  have hcap := h.cap
  have hlt : st.off + min len (st.end_ - st.off) ≤ st.end_ := by omega
  have hslice : slice st.stage st.off (st.off + min len (st.end_ - st.off)) = some (st.held.take len) := by
    unfold slice
    rw [if_pos ⟨by omega, by rw [h.size]; omega⟩]
    congr 1
    rw [held, List.drop_take, List.drop_take, List.take_take]
    congr 1
    omega
  refine ⟨{ st with off := st.off + min len (st.end_ - st.off) }, ?_, ⟨hlt, hcap, h.size⟩, ?_⟩
  · unfold serve
    rw [if_neg (by omega), hslice]
  · show (st.stage.take st.end_).drop (st.off + min len (st.end_ - st.off)) = st.held.drop len
    have hl := h.length_held
    rw [held] at hl ⊢
    rw [List.drop_drop]
    by_cases hle : len ≤ st.end_ - st.off
    · rw [Nat.min_eq_left hle]
    · rw [List.drop_of_length_le (by rw [List.length_take, h.size]; omega),
        List.drop_of_length_le (by rw [List.length_take, h.size]; omega)]

/-- What the socket gives is what comes next. -/
theorem sockRead_ok {len : Nat} {c : SockRead} {unread bs rest : Bytes}
    (h : sockRead len c unread = some (.ok bs, rest)) :
    unread = bs ++ rest ∧ bs.length ≤ len ∧ (bs = [] → len = 0 ∨ unread = []) := by
  unfold sockRead at h
  split at h
  · cases h
  · rename_i n
    split at h
    · rename_i hn
      cases h
      refine ⟨(List.take_append_drop _ _).symm, by rw [List.length_take]; omega, fun he => hn.2.2 ?_⟩
      have hl := congrArg List.length he
      rw [List.length_take, List.length_nil] at hl
      omega
    · cases h

theorem sockRead_error {len code : Nat} {c : SockRead} {unread rest : Bytes}
    (h : sockRead len c unread = some (.error code, rest)) : rest = unread := by
  unfold sockRead at h
  split at h
  · cases h; rfl
  · split at h <;> cases h

/-- What one read does: it gives the next bytes of what is staged and to come, none of them only at
the end of the stream or into an empty buffer; or it fails, and leaves everything as it was. -/
inductive Reads (len : Nat) (st : Staged) (unread : Bytes) : Got → Staged → Bytes → Prop
  | bytes {bs unread' : Bytes} {st' : Staged} :
      st.held ++ unread = bs ++ (st'.held ++ unread') → bs.length ≤ len →
      (bs = [] → len = 0 ∨ st.held ++ unread = []) → Reads len st unread (.bytes bs) st' unread'
  | failed {code : Nat} : Reads len st unread (.failed code) st unread

theorem read_spec {len : Nat} {c : SockRead} {st st' : Staged} {unread unread' : Bytes} {g : Got}
    (hok : st.Ok) (h : st.read len c unread = some ((g, st'), unread')) : st'.Ok ∧ Reads len st unread g st' unread' := by
  unfold read at h
  split at h
  · rename_i hdrained
    have hheld := held_drained hdrained
    split at h
    · obtain ⟨⟨r, rest⟩, hr, h⟩ := Option.map_eq_some_iff.1 h
      cases r with
      | error code =>
        cases h
        obtain rfl := sockRead_error hr
        exact ⟨hok, .failed⟩
      | ok bs =>
        cases h
        obtain ⟨hsplit, hlen, hend⟩ := sockRead_ok hr
        refine ⟨hok, .bytes ?_ hlen ?_⟩
        · rw [hheld]
          exact hsplit
        · rw [hheld]
          exact hend
    · rename_i hsmall
      obtain ⟨⟨r, rest⟩, hr, h⟩ := Option.map_eq_some_iff.1 h
      cases r with
      | error code =>
        cases h
        obtain rfl := sockRead_error hr
        exact ⟨hok, .failed⟩
      | ok bs =>
        obtain ⟨hsplit, hlen, hend⟩ := sockRead_ok hr
        rw [hok.size] at hlen hend
        have hfill : Ok ⟨bs ++ st.stage.drop bs.length, 0, bs.length⟩ := by
          refine ⟨Nat.zero_le _, hlen, ?_⟩
          rw [List.length_append, List.length_drop, hok.size]
          omega
        have hfresh : held ⟨bs ++ st.stage.drop bs.length, 0, bs.length⟩ = bs := by simp [held]
        obtain ⟨st1, hserve, hok1, hrest⟩ := serve_spec hfill len
        dsimp only at h
        rw [hserve] at h
        cases h
        rw [hfresh] at hrest ⊢
        refine ⟨hok1, .bytes ?_ ?_ fun he => ?_⟩
        · rw [hheld, List.nil_append, hsplit, hrest, ← List.append_assoc, List.take_append_drop]
        · rw [List.length_take]
          exact Nat.min_le_left _ _
        · rw [hheld, List.nil_append]
          rcases List.take_eq_nil_iff.1 he with h0 | hb
          · exact .inl h0
          · exact .inr ((hend hb).resolve_left (by decide))
  · rename_i hstaged
    obtain ⟨st1, hserve, hok1, hrest⟩ := serve_spec hok len
    rw [hserve] at h
    cases h
    have horder := hok.order
    have hl := hok.length_held
    refine ⟨hok1, .bytes ?_ ?_ fun he => ?_⟩
    · rw [hrest, ← List.append_assoc, List.take_append_drop]
    · rw [List.length_take]
      exact Nat.min_le_left _ _
    · rcases List.take_eq_nil_iff.1 he with h0 | hb
      · exact .inl h0
      · rw [hb, List.length_nil] at hl
        omega

end Staged

/-! ## Runs -/

/-- A reader at work: what it has been given, and what the socket has still to give. -/
structure Link where
  staged : Staged
  unread : Bytes
  returned : Bytes
  panicked : Bool

/-- A read with a buffer of so many bytes. -/
def Link.step (k : Link) (a : Nat × SockRead) : Option Link :=
  (k.staged.read a.1 a.2 k.unread).map fun
    | ((.bytes bs, st), unread) => { k with staged := st, unread, returned := k.returned ++ bs }
    | ((.failed _, st), unread) => { k with staged := st, unread }
    | ((.panicked, st), unread) => { k with staged := st, unread, panicked := true }

def Link.init (stream : Bytes) : Link := ⟨.new, stream, [], false⟩

/-- What is given, staged and to come is always the stream. -/
structure Link.Ok (stream : Bytes) (k : Link) : Prop where
  stream : k.returned ++ (k.staged.held ++ k.unread) = stream
  staged : k.staged.Ok
  safe : k.panicked = false

theorem Link.Ok.init (stream : Bytes) : Link.Ok stream (.init stream) := ⟨rfl, .new, rfl⟩

theorem Link.Ok.step {stream : Bytes} {k k' : Link} {a : Nat × SockRead} (h : k.Ok stream) (hs : k.step a = some k') :
    k'.Ok stream := by
  obtain ⟨⟨⟨g, st⟩, unread⟩, hr, hs⟩ := Option.map_eq_some_iff.1 hs
  obtain ⟨hok, hread⟩ := Staged.read_spec h.staged hr
  cases hread with
  | bytes hview _ _ =>
    cases hs
    refine ⟨?_, hok, h.safe⟩
    have hstream := h.stream
    rw [hview, ← List.append_assoc] at hstream
    exact hstream
  | failed =>
    cases hs
    exact ⟨h.stream, hok, h.safe⟩

/-- `Staged` is a transparent reader. Whatever the socket gives at a time and wherever it fails, and
with buffers of whatever sizes: what has been returned, what is staged and what is unread make up the
stream, the indices are in range and nothing panics; a read into a buffer with room gives nothing
only at the end of the stream; and a failed one changes nothing. -/
theorem staged_transparent {stream : Bytes} {k : Link} (h : Reach Link.step Any (.init stream) k) :
    k.returned ++ (k.staged.held ++ k.unread) = stream ∧
    (k.staged.off ≤ k.staged.end_ ∧ k.staged.end_ ≤ STAGE_CAP ∧ k.staged.stage.length = STAGE_CAP ∧ k.panicked = false) ∧
    ∀ len c g st unread, k.staged.read len c k.unread = some ((g, st), unread) →
      g ≠ .panicked ∧ (0 < len → g = .bytes [] → k.staged.held ++ k.unread = []) ∧
      (∀ code, g = .failed code → st = k.staged ∧ unread = k.unread) := by
  have hok : k.Ok stream := h.invariant (.init stream) fun _ _ _ _ ih hs _ => ih.step hs
  refine ⟨hok.stream, ⟨hok.staged.order, hok.staged.cap, hok.staged.size, hok.safe⟩, ?_⟩
  intro len c g st unread hr
  have hread := (Staged.read_spec hok.staged hr).2
  refine ⟨?_, ?_, ?_⟩
  · rintro rfl
    cases hread
  · rintro hpos rfl
    cases hread with
    | bytes _ _ hend => exact (hend rfl).resolve_left (by omega)
  · rintro code rfl
    cases hread
    exact ⟨rfl, rfl⟩

/-- A small read, a failure with bytes staged, and a large read that takes them first. -/
def mixed : List (Nat × SockRead) :=
  [(2, .gives 3), (1, .fails 5), (STAGE_CAP, .gives 1), (STAGE_CAP, .fails 5), (STAGE_CAP, .gives 1)]

theorem staged_transparent_mixed : ∃ k, run Link.step (.init [1, 2, 3, 4, 5]) mixed = some k ∧ k.returned = [1, 2, 3, 4, 5] ∧
    k.returned ++ (k.staged.held ++ k.unread) = [1, 2, 3, 4, 5] := by
  have hrun : ((run Link.step (.init [1, 2, 3, 4, 5]) mixed).any fun k => decide (k.returned = [1, 2, 3, 4, 5])) = true := by
    decide +kernel
  obtain ⟨k, hk, hv⟩ := (Option.any_eq_true _ _).1 hrun
  exact ⟨k, hk, of_decide_eq_true hv, (staged_transparent (.of_run hk)).1⟩

end Thunderflash.Recv
