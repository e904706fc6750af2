import FiscoBcos.Rlp.Decoder
import FiscoBcos.Rlp.StreamSpec
import FiscoBcos.Rlp.Writer
import Mathlib

/-!
# Typed decoders and the cached `Kind`

The typed decoders share the stream's cached `Kind`: a decoder that reads a
value must re-arm `Kind`, or the next decoder sees the same value again.
`decodeByteArray` reads a `[1]byte` held as a single byte through
`Stream.Uint`, and on the byte `0x00` `Uint` fails with `ErrCanonInt` before
it re-arms `Kind`. `decodeByteArray` drops that error, so the field after it
is decoded from the zero byte once more: an integer field then fails with
`ErrCanonInt`, although the writer accepts the struct.
-/

namespace FiscoBcos.Rlp

open FiscoBcos.Rlp.Stream

/-- `Stream.uint` on a cached zero byte fails and leaves `Kind` as it is. -/
theorem uint_cached_zero {s : Stream} (hk : s.kind = some .byte) (he : s.kinderr = none)
    (hz : s.byteval = 0) (maxbits : Nat) : s.uint maxbits = (.error .errCanonInt, s) := by
  simp [Stream.uint, Kind_cached hk, he, hz]

/-- A `[1]byte` read from the single byte zero keeps that byte as the next
value of the stream. -/
theorem decodeByteArray_zero {s s1 : Stream} (h : s.Kind = ((.byte, 0, none), s1))
    (hz : s1.byteval = 0) :
    decodeByteArray 1 s = (.ok (.bytes [0]), s1) ∧ s1.Kind = ((.byte, 0, none), s1) := by
  obtain ⟨hk, hn, he⟩ := Kind_caches h
  have again : s1.Kind = ((.byte, 0, none), s1) := by rw [Kind_cached hk, hn, he]
  refine ⟨?_, again⟩
  simp [decodeByteArray, h, Stream.Uint, uint_cached_zero hk he hz, Except.toOption]

/-- A struct whose `[1]byte` field holds zero and is followed by an integer
field cannot be decoded, whatever follows. -/
theorem decodeFields_zero_byteArray {s s1 : Stream} (h : s.Kind = ((.byte, 0, none), s1))
    (hz : s1.byteval = 0) {ts ts' : Tags} (hts : ts.ignored = false)
    (hts' : ts'.ignored = false) (bits : Nat) (fields : List (GoType × Tags)) :
    decodeFields ((.array 1 (.uint 8), ts) :: (.uint bits, ts') :: fields) s =
      (.error (.decodeError "non-canonical integer (leading zero bytes)"), s1) := by
  have first : decodeValue (.array 1 (.uint 8)) ts s = (.ok (.bytes [0]), s1) := by
    simp [decodeValue, GoType.isByte, (decodeByteArray_zero h hz).1]
  obtain ⟨hk, -, he⟩ := Kind_caches h
  -- the integer field reads the cached zero byte again
  have second : decodeValue (.uint bits) ts' s1 =
      (.error (.decodeError "non-canonical integer (leading zero bytes)"), s1) := by
    simp [decodeValue, decodeUint, uint_cached_zero hk he hz, wrapStreamError]
  simp [decodeFields, hts, hts', first, second]

theorem decodeFields_zero_byteArray_reset :
    (reset [0x00, 0x05] 2).Kind = ((.byte, 0, none), (reset [0x00, 0x05] 2).Kind.2) ∧
      (reset [0x00, 0x05] 2).Kind.2.byteval = 0 ∧
      decodeFields [(.array 1 (.uint 8), Tags.none), (.uint 64, Tags.none)] (reset [0x00, 0x05] 2) =
        (.error (.decodeError "non-canonical integer (leading zero bytes)"), (reset [0x00, 0x05] 2).Kind.2) :=
  have kind : (reset [0x00, 0x05] 2).Kind = ((.byte, 0, none), (reset [0x00, 0x05] 2).Kind.2) := rfl
  have zero : (reset [0x00, 0x05] 2).Kind.2.byteval = 0 := rfl
  ⟨kind, zero, decodeFields_zero_byteArray kind zero rfl rfl 64 []⟩

theorem decodeBytes_zero_byteArray_field :
    encodeToBytes (.struct [(.array 1 (.uint 8), Tags.none), (.uint 64, Tags.none)])
        (.struct [.bytes [0], .uint 5]) = .ok [0xC2, 0x00, 0x05] ∧
      decodeBytes (.struct [(.array 1 (.uint 8), Tags.none), (.uint 64, Tags.none)])
        [0xC2, 0x00, 0x05] = .error (.decodeError "non-canonical integer (leading zero bytes)") :=
  ⟨rfl, rfl⟩

/-- A `[1]byte` decoded from a cached zero byte leaves the stream as it found
it. -/
theorem decodeValue_byteArray_cached_zero {s : Stream} (hk : s.kind = some .byte)
    (he : s.kinderr = none) (hz : s.byteval = 0) :
    decodeValue (.array 1 (.uint 8)) Tags.none s = (.ok (.bytes [0]), s) := by
  simp [decodeValue, GoType.isByte, decodeByteArray, Kind_cached hk, he, Stream.Uint,
    uint_cached_zero hk he hz, Except.toOption]

/-- From a cached zero byte the element loop of a `[][1]byte` never reaches
the end of its list: each round decodes one more element and leaves the
stream as it was, whatever the number of rounds. -/
theorem decodeSliceElems_cached_zero {s : Stream} (hk : s.kind = some .byte)
    (he : s.kinderr = none) (hz : s.byteval = 0) :
    ∀ rounds, decodeSliceElems (decodeValue (.array 1 (.uint 8)) Tags.none) rounds s =
      (.error .fuelExhausted, s)
  | 0 => rfl
  | rounds + 1 => by
    rw [decodeSliceElems, decodeValue_byteArray_cached_zero hk he hz]
    simp only [decodeSliceElems_cached_zero hk he hz rounds]

theorem decodeBytes_byteArray_slice_diverges :
    (Stream.reset [0xC1, 0x00] 2).List = (.ok 1, ⟨[0x00], 1, true, none, 0, 0, none, [⟨0, 1⟩]⟩) ∧
      decodeValue (.array 1 (.uint 8)) Tags.none ⟨[0x00], 1, true, none, 0, 0, none, [⟨0, 1⟩]⟩ =
        (.ok (.bytes [0]), ⟨[], 0, true, some .byte, 0, 0, none, [⟨1, 1⟩]⟩) ∧
      (∀ rounds, decodeSliceElems (decodeValue (.array 1 (.uint 8)) Tags.none) rounds
          ⟨[], 0, true, some .byte, 0, 0, none, [⟨1, 1⟩]⟩ =
        (.error .fuelExhausted, ⟨[], 0, true, some .byte, 0, 0, none, [⟨1, 1⟩]⟩)) ∧
      decodeBytes (.slice (.array 1 (.uint 8))) [0xC1, 0x00] = .error .fuelExhausted :=
  ⟨rfl, rfl, decodeSliceElems_cached_zero rfl rfl rfl, rfl⟩

end FiscoBcos.Rlp
