/-
Entries one after another on the wire: a list of them and the terminator read back exactly, nothing
else reads as an entry, and a stream that ends inside one is refused.
-/
import Thunderflash.Wire.Entry

namespace Thunderflash

open Codec

namespace Entry

/-- `write_terminator`. -/
def terminator : Bytes := [Kind.end_.toU8]

theorem length_encode (e : Entry) : e.encode.length = e.path.bytes.length + 23 := by
  simp [encode]
  omega

/-- `decode` until it returns `None`: the entries, and what it leaves unread. -/
def decodeAll (bs : Bytes) : Read DecodeError (List Entry) :=
  match _h : decode bs with
  | .more => .more
  | .fail e => .fail e
  | .ok none rest => .ok [] rest
  | .ok (some e) rest => (decodeAll rest).bind fun es rest => .ok (e :: es) rest
termination_by bs.length
decreasing_by
  rw [(decode_some _h).1, List.length_append, length_encode]
  omega

theorem decodeAll_terminator (rest : Bytes) : decodeAll (terminator ++ rest) = .ok [] rest := by
  have hd : decode (terminator ++ rest) = .ok none rest := decode_terminator rest
  rw [decodeAll]
  split <;> rename_i h <;> rw [hd] at h <;> cases h
  rfl

theorem decodeAll_cons {e : Entry} (he : e.Framed) (rest : Bytes) :
    decodeAll (e.encode ++ rest) = (decodeAll rest).bind fun es rest => .ok (e :: es) rest := by
  have hd := decode_encode he rest
  rw [decodeAll]
  split <;> rename_i h <;> rw [hd] at h <;> cases h
  rfl

/-- A list of entries and the terminator read back, and what follows stays unread. -/
theorem decodeAll_encode : ∀ {es : List Entry}, (∀ e ∈ es, e.Framed) → ∀ rest,
    decodeAll ((es.map encode).flatten ++ (terminator ++ rest)) = .ok es rest
  | [], _, rest => decodeAll_terminator rest
  | e :: es, h, rest => by
    have hes : ∀ x ∈ es, x.Framed := fun x hx => h x (by simp [hx])
    have ih := decodeAll_encode hes rest
    rw [List.map_cons, List.flatten_cons, List.append_assoc, decodeAll_cons (h e (by simp)), ih]
    rfl

/-- What has arrived of a stream decides `decode` for good. -/
theorem stable_decode : Read.Stable decode := by
  refine (Read.stable_readExact 1).bind fun byte => ?_
  cases Kind.fromU8 (byte.headD 0) with
  | none => exact .of_fail _
  | some kind =>
    cases kind with
    | end_ => exact .of_ok _
    | file | dir | symlink =>
      refine (Read.stable_readExact 2).bind fun len => (Read.stable_readExact _).bind fun path => ?_
      split
      · refine (Read.stable_readExact 8).bind fun size => ?_
        split
        · exact .of_fail _
        · exact (Read.stable_readExact 4).bind fun mode => (Read.stable_readExact 8).bind fun mtime => .of_ok _
      · exact .of_fail _

/-- A stream that ends inside an entry has no entry and no terminator there. -/
theorem decode_take {e : Entry} (he : e.Framed) {n : Nat} (hn : n < e.encode.length) : decode (e.encode.take n) = .more := by
  have hwhole : decode (e.encode.take n ++ e.encode.drop n) = .ok (some e) [] := by
    rw [List.take_append_drop, ← List.append_nil e.encode]
    exact decode_encode he []
  cases hd : decode (e.encode.take n) with
  | more => rfl
  | fail err => rw [stable_decode.fail hd] at hwhole; cases hwhole
  | ok a rest =>
    rw [stable_decode.ok hd] at hwhole
    injection hwhole with ha hrest
    have := congrArg List.length hrest
    rw [List.length_append, List.length_drop, List.length_nil] at this
    omega

/-- The entry codec: lists read back, whatever reads as an entry is its encoding, and every
truncation is refused. -/
theorem codec :
    (∀ es : List Entry, (∀ e ∈ es, e.Framed) → ∀ rest,
      decodeAll ((es.map encode).flatten ++ (terminator ++ rest)) = .ok es rest) ∧
    (∀ bs e rest, decode bs = .ok (some e) rest → bs = e.encode ++ rest) ∧
    ∀ e : Entry, e.Framed → ∀ n < e.encode.length, (decode (e.encode.take n)).atEof = .error none :=
  ⟨fun _ h rest => decodeAll_encode h rest, fun _ _ _ h => (decode_some h).1,
    fun _ he _ hn => by rw [decode_take he hn]; rfl⟩

theorem codec_sample :
    decodeAll ((List.map encode [⟨.dir, ⟨[97], by decide⟩, 0, 0o755, -1⟩, ⟨.file, ⟨[97, 47, 98], by decide⟩, 9223372036854775808, 0o644, 7⟩]).flatten ++
      (terminator ++ [9, 9])) =
        .ok [⟨.dir, ⟨[97], by decide⟩, 0, 0o755, -1⟩, ⟨.file, ⟨[97, 47, 98], by decide⟩, 9223372036854775808, 0o644, 7⟩] [9, 9] ∧
    decode [2, 1, 0, 97, 0, 0, 0, 0, 0, 0, 0, 0, 0, 0, 0, 0, 0, 0, 0, 0, 0, 0, 0, 0, 0] =
      .ok (some ⟨.dir, ⟨[97], by decide⟩, 0, 0, 0⟩) [0] ∧
    (decode ((⟨.dir, ⟨[97], by decide⟩, 0, 0o755, -1⟩ : Entry).encode.take 23)).atEof = .error none := by
  refine ⟨codec.1 _ ?_ _, by decide +kernel, codec.2.2 _ ⟨by decide, by decide, by decide⟩ 23 (by decide +kernel)⟩
  intro e he
  rcases List.mem_pair.1 he with rfl | rfl <;> exact ⟨by decide, by decide, by decide⟩

end Entry

end Thunderflash
