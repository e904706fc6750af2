import FiscoBcos.Rlp.StreamSpec
import FiscoBcos.Lib.Except
import FiscoBcos.Rlp.ItemWriter
import Mathlib

/-!
# Raw RLP splitting

`rlp/raw.go`: `Split`, `SplitString`, `SplitList` and `CountValues` read
headers straight off a byte slice, with the canonical-size checks of the
stream. The trie decodes its nodes with them.

On a canonical encoding they read the item back: `split_encode` gives its
kind, its payload and the bytes after it, and `countValues_encodeList` the
number of items in a list's payload.
-/

namespace FiscoBcos.Rlp

/-- `readSize`: a size of `slen` big-endian bytes, at least 56 and without a
leading zero byte. The callers pass one to eight bytes. -/
def readSize (b : List UInt8) (slen : Nat) : Except Error Nat :=
  if slen > b.length then .error .ioErrUnexpectedEOF
  else if BigEndian.value (b.take slen) < 56 ∨ b.head? = some 0 then .error .errCanonSize
  else .ok (BigEndian.value (b.take slen))

/-- `readKind` of `raw.go`: the kind, tag size and content size of the first
value of `buf`. -/
def readKind (buf : List UInt8) : Except Error (Kind × Nat × Nat) :=
  match buf with
  | [] => .error .ioErrUnexpectedEOF
  | b :: rest =>
    let head : Except Error (Kind × Nat × Nat) :=
      if b < 0x80 then .ok (.byte, 0, 1)
      else if b < 0xB8 then
        -- a one-byte string below 0x80 should have been a single byte
        if (b - 0x80).toNat = 1 ∧ rest.head?.any (· < 128) then .error .errCanonSize
        else .ok (.string, 1, (b - 0x80).toNat)
      else if b < 0xC0 then
        (readSize rest (b - 0xB7).toNat).map fun size => (.string, (b - 0xB7).toNat + 1, size)
      else if b < 0xF8 then .ok (.list, 1, (b - 0xC0).toNat)
      else
        (readSize rest (b - 0xF7).toNat).map fun size => (.list, (b - 0xF7).toNat + 1, size)
    head.bind fun (k, tagsize, contentsize) =>
      if contentsize > buf.length - tagsize then .error .errValueTooLarge
      else .ok (k, tagsize, contentsize)

/-- `Split`: the kind and content of the first value, and the bytes after it. -/
def split (b : List UInt8) : Except Error (Kind × List UInt8 × List UInt8) :=
  (readKind b).map fun (k, tagsize, size) => (k, (b.drop tagsize).take size, b.drop (tagsize + size))

/-- `SplitString`. -/
def splitString (b : List UInt8) : Except Error (List UInt8 × List UInt8) :=
  (split b).bind fun (k, content, rest) =>
    if k = .list then .error .errExpectedString else .ok (content, rest)

/-- `SplitList`. -/
def splitList (b : List UInt8) : Except Error (List UInt8 × List UInt8) :=
  (split b).bind fun (k, content, rest) =>
    if k ≠ .list then .error .errExpectedList else .ok (content, rest)

/-- The loop of `CountValues`, run at most `fuel` times. -/
def countValuesLoop : Nat → List UInt8 → Except Error Nat
  | _, [] => .ok 0
  -- not reached from `countValues`: every value takes at least one byte
  | 0, _ :: _ => .error .errValueTooLarge
  | fuel + 1, b@(_ :: _) => (readKind b).bind fun (_, tagsize, size) =>
      (countValuesLoop fuel (b.drop (tagsize + size))).map (· + 1)

/-- `CountValues`. -/
def countValues (b : List UInt8) : Except Error Nat :=
  countValuesLoop b.length b

/-! ## Reading canonical encodings -/

/-- The payload of an item: a string's bytes, a list's encoded items. -/
def Item.payload : Item → List UInt8
  | .bytes b => b
  | .list items => Item.encodeList items

/-- The kind `readKind` reports for an item. -/
def Item.rawKind : Item → Kind
  | .bytes b => if IsSingleByte b then .byte else .string
  | .list _ => .list

theorem readSize_bytes {n : Nat} (big : ¬n < 56) (rest : List UInt8) :
    readSize (BigEndian.bytes n ++ rest) (BigEndian.bytes n).length = .ok n := by
  have lead : (BigEndian.bytes n).head? ≠ some 0 := by
    cases h : BigEndian.bytes n with
    | nil => simp at h; omega
    | cons b _ => simpa using BigEndian.head_bytes_ne_zero h
  simp [readSize, List.take_left', big, lead, show n ≠ 0 by omega]

/-- A long header's size bytes: one to eight of them. -/
theorem length_bytes_long {n : Nat} (hn : n < 2 ^ 64) (big : ¬n < 56) :
    ∃ len, (BigEndian.bytes n).length = len ∧ 0 < len ∧ len ≤ 8 := by
  obtain ⟨pos, le⟩ := Stream.length_bytes_size hn big
  exact ⟨_, rfl, pos, le⟩

theorem readKind_single {x : UInt8} (small : x < 0x80) (rest : List UInt8) :
    readKind (x :: rest) = .ok (.byte, 0, 1) := by
  simp [readKind, small, Except.bind]

/-- The header of a string that is not a single byte, read back. -/
theorem readKind_header_string {payload : List UInt8} (rest : List UInt8)
    (bound : payload.length < 2 ^ 64) (canon : ¬IsSingleByte payload) :
    readKind (header 0x80 0xB7 payload.length ++ payload ++ rest) =
      .ok (.string, (header 0x80 0xB7 payload.length).length, payload.length) := by
  by_cases short : payload.length < 56
  · have tag : ((0x80 : UInt8) + payload.length.toUInt8).toNat = 128 + payload.length :=
      toNat_tag_add (by simp; omega)
    have size : ((0x80 : UInt8) + payload.length.toUInt8 - 0x80).toNat = payload.length := by
      rw [UInt8.toNat_sub_of_le _ _ (by simp [UInt8.le_iff_toNat_le, tag]), tag]
      simp
    -- a one-byte payload is at least 0x80, or it would be its own encoding
    have notCanon : ¬(payload.length = 1 ∧ ((payload ++ rest).head?.any (· < 128)) = true) := by
      rintro ⟨one, lt⟩
      obtain ⟨y, rfl⟩ := List.length_eq_one_iff.mp one
      exact canon (by simpa [IsSingleByte] using lt)
    simp only [header, short, if_true, List.cons_append, List.nil_append,
      readKind]
    rw [if_neg (by simp only [UInt8.lt_iff_toNat_lt, tag, UInt8.toNat_ofNat]; omega),
      if_pos (by simp only [UInt8.lt_iff_toNat_lt, tag, UInt8.toNat_ofNat]; omega), size,
      if_neg notCanon]
    simp [Except.bind]
  · obtain ⟨len, hlen, pos, le⟩ := length_bytes_long bound short
    have tag : ((0xB7 : UInt8) + len.toUInt8).toNat = 183 + len := toNat_tag_add (by simp; omega)
    have size : ((0xB7 : UInt8) + len.toUInt8 - 0xB7).toNat = len := by
      rw [UInt8.toNat_sub_of_le _ _ (by simp [UInt8.le_iff_toNat_le, tag]), tag]
      simp
    have sized := readSize_bytes short (payload ++ rest)
    rw [hlen] at sized
    simp only [header, short, if_false, hlen, List.cons_append, List.append_assoc, readKind]
    rw [if_neg (by simp only [UInt8.lt_iff_toNat_lt, tag, UInt8.toNat_ofNat]; omega),
      if_neg (by simp only [UInt8.lt_iff_toNat_lt, tag, UInt8.toNat_ofNat]; omega),
      if_pos (by simp only [UInt8.lt_iff_toNat_lt, tag, UInt8.toNat_ofNat]; omega), size, sized]
    simp only [Except.map, Except.bind, List.length_cons, List.length_append, hlen]
    rw [if_neg (by omega)]

/-- The header of a list, read back. -/
theorem readKind_header_list {payload : List UInt8} (rest : List UInt8)
    (bound : payload.length < 2 ^ 64) :
    readKind (header 0xC0 0xF7 payload.length ++ payload ++ rest) =
      .ok (.list, (header 0xC0 0xF7 payload.length).length, payload.length) := by
  by_cases short : payload.length < 56
  · have tag : ((0xC0 : UInt8) + payload.length.toUInt8).toNat = 192 + payload.length :=
      toNat_tag_add (by simp; omega)
    have size : ((0xC0 : UInt8) + payload.length.toUInt8 - 0xC0).toNat = payload.length := by
      rw [UInt8.toNat_sub_of_le _ _ (by simp [UInt8.le_iff_toNat_le, tag]), tag]
      simp
    simp only [header, short, if_true, List.cons_append, List.nil_append,
      readKind]
    rw [if_neg (by simp only [UInt8.lt_iff_toNat_lt, tag, UInt8.toNat_ofNat]; omega),
      if_neg (by simp only [UInt8.lt_iff_toNat_lt, tag, UInt8.toNat_ofNat]; omega),
      if_neg (by simp only [UInt8.lt_iff_toNat_lt, tag, UInt8.toNat_ofNat]; omega),
      if_pos (by simp only [UInt8.lt_iff_toNat_lt, tag, UInt8.toNat_ofNat]; omega), size]
    simp [Except.bind]
  · obtain ⟨len, hlen, pos, le⟩ := length_bytes_long bound short
    have tag : ((0xF7 : UInt8) + len.toUInt8).toNat = 247 + len := toNat_tag_add (by simp; omega)
    have size : ((0xF7 : UInt8) + len.toUInt8 - 0xF7).toNat = len := by
      rw [UInt8.toNat_sub_of_le _ _ (by simp [UInt8.le_iff_toNat_le, tag]), tag]
      simp
    have sized := readSize_bytes short (payload ++ rest)
    rw [hlen] at sized
    simp only [header, short, if_false, hlen, List.cons_append, List.append_assoc, readKind]
    rw [if_neg (by simp only [UInt8.lt_iff_toNat_lt, tag, UInt8.toNat_ofNat]; omega),
      if_neg (by simp only [UInt8.lt_iff_toNat_lt, tag, UInt8.toNat_ofNat]; omega),
      if_neg (by simp only [UInt8.lt_iff_toNat_lt, tag, UInt8.toNat_ofNat]; omega),
      if_neg (by simp only [UInt8.lt_iff_toNat_lt, tag, UInt8.toNat_ofNat]; omega), size, sized]
    simp only [Except.map, Except.bind, List.length_cons, List.length_append, hlen]
    rw [if_neg (by omega)]

/-- The tag bytes `readKind` reports for an item: none for a single byte. -/
def Item.tagSize : Item → Nat
  | .bytes b => if IsSingleByte b then 0 else (header 0x80 0xB7 b.length).length
  | .list items => (header 0xC0 0xF7 (Item.encodeList items).length).length

/-- An encoding is its tag bytes followed by its payload. -/
theorem Item.encode_eq_tag (v : Item) :
    v.encode = v.encode.take v.tagSize ++ v.payload ∧ v.encode.length = v.tagSize + v.payload.length := by
  cases v with
  | bytes b =>
    by_cases single : IsSingleByte b
    · simp [Item.encode_single single, Item.tagSize, single, Item.payload]
    · simp [Item.encode_string single, Item.tagSize, single, Item.payload]
  | list items => simp [Item.encode_list, Item.tagSize, Item.payload]

theorem Item.length_payload_le (v : Item) : v.payload.length ≤ v.encode.length := by
  have := (Item.encode_eq_tag v).2
  omega

/-- `readKind` reads the header of a canonical encoding back. -/
theorem readKind_encode (v : Item) (rest : List UInt8) (bound : v.payload.length < 2 ^ 64) :
    readKind (v.encode ++ rest) = .ok (v.rawKind, v.tagSize, v.payload.length) := by
  cases v with
  | bytes b =>
    by_cases single : IsSingleByte b
    · obtain ⟨x, rfl⟩ : ∃ x, b = [x] := by
        unfold IsSingleByte at single
        split at single <;> simp_all
      have small : x < 0x80 := single
      simp [Item.encode_single single, Item.rawKind, single, Item.tagSize, Item.payload,
        readKind_single small]
    · simp only [Item.payload] at bound
      simpa [Item.encode_string single, Item.rawKind, single, Item.tagSize, Item.payload]
        using readKind_header_string rest bound single
  | list items =>
    simp only [Item.payload] at bound
    simpa [Item.encode_list, Item.rawKind, Item.tagSize, Item.payload]
      using readKind_header_list rest bound

/-- `Split` reads a canonical encoding back: its kind, its payload, and the
bytes after it. -/
theorem split_encode (v : Item) (rest : List UInt8) (bound : v.payload.length < 2 ^ 64) :
    split (v.encode ++ rest) = .ok (v.rawKind, v.payload, rest) := by
  obtain ⟨parts, len⟩ := Item.encode_eq_tag v
  have tagLen : (v.encode.take v.tagSize).length = v.tagSize := by simp; omega
  have after : (v.encode ++ rest).drop v.tagSize = v.payload ++ rest := by
    conv_lhs => rw [parts]
    simp [tagLen]
  simp only [split, readKind_encode v rest bound, Except.map, ← List.drop_drop, after]
  simp

theorem splitString_encode {b : List UInt8} (rest : List UInt8) (bound : b.length < 2 ^ 64) :
    splitString ((Item.bytes b).encode ++ rest) = .ok (b, rest) := by
  have kind : (Item.bytes b).rawKind ≠ .list := by
    simp only [Item.rawKind]; split <;> simp
  simp [splitString, split_encode (.bytes b) rest bound, kind, Item.payload]

theorem splitList_encode {items : List Item} (rest : List UInt8)
    (bound : (Item.encodeList items).length < 2 ^ 64) :
    splitList ((Item.list items).encode ++ rest) = .ok (Item.encodeList items, rest) := by
  simp [splitList, split_encode (.list items) rest bound, Item.rawKind, Item.payload]

/-- Every item of a list payload is one value for `CountValues`. -/
theorem countValuesLoop_encodeList :
    ∀ (items : List Item) (fuel : Nat), (Item.encodeList items).length ≤ fuel →
      (Item.encodeList items).length < 2 ^ 64 →
      countValuesLoop fuel (Item.encodeList items) = .ok items.length
  | [], fuel, _, _ => by cases fuel <;> rfl
  | item :: items, fuel, room, bound => by
    have first := Item.length_encode_pos item
    have sizes : (Item.encodeList (item :: items)).length =
        item.encode.length + (Item.encodeList items).length := by simp
    obtain ⟨fuel, rfl⟩ : ∃ f, fuel = f + 1 := ⟨fuel - 1, by omega⟩
    obtain ⟨_, len⟩ := Item.encode_eq_tag item
    have read := readKind_encode item (Item.encodeList items) (by
      have := Item.length_payload_le item; omega)
    have after : (item.encode ++ Item.encodeList items).drop (item.tagSize + item.payload.length) =
        Item.encodeList items := by rw [← len]; simp
    have restRoom : (Item.encodeList items).length ≤ fuel := by omega
    have restBound : (Item.encodeList items).length < 2 ^ 64 := by omega
    have tail := countValuesLoop_encodeList items fuel restRoom restBound
    obtain ⟨b, bs, hb⟩ := List.exists_cons_of_length_pos
      (by simp; omega : 0 < (item.encode ++ Item.encodeList items).length)
    simp only [Item.encodeList_cons, List.length_cons]
    rw [hb, countValuesLoop, ← hb, read]
    simp only [Except.bind_ok_eq, after, tail, Except.map_ok_eq]

theorem countValues_encodeList (items : List Item) (bound : (Item.encodeList items).length < 2 ^ 64) :
    countValues (Item.encodeList items) = .ok items.length :=
  countValuesLoop_encodeList items _ le_rfl bound

/-! ## Exactly the canonical headers -/

/-- `h` is the header the encoder writes before `content` for an item of
kind `k`: none for a byte below `0x80`, `puthead` with the string tags for
any other string, and with the list tags for a list. -/
inductive CanonHeader : Kind → List UInt8 → List UInt8 → Prop
  | byte {x : UInt8} (small : x < 0x80) : CanonHeader .byte [] [x]
  | string {content : List UInt8} (canon : ¬IsSingleByte content) :
      CanonHeader .string (puthead 0x80 0xB7 content.length.toUInt64) content
  | list (content : List UInt8) : CanonHeader .list (puthead 0xC0 0xF7 content.length.toUInt64) content

theorem CanonHeader.ne_nil {k : Kind} {h content : List UInt8} (canon : CanonHeader k h content) :
    h ++ content ≠ [] := by
  cases canon with
  | byte => simp
  | string => simp [puthead]; split <;> simp
  | list => simp [puthead]; split <;> simp

/-- A size `readSize` accepts is the canonical numeral of the bytes it read. -/
theorem readSize_eq_ok {b : List UInt8} {slen size : Nat} (h : readSize b slen = .ok size) (pos : 0 < slen) :
    b.take slen = BigEndian.bytes size ∧ ¬size < 56 ∧ slen ≤ b.length := by
  unfold readSize at h
  split_ifs at h with short canon
  cases h
  have lead : (b.take slen).head? ≠ some 0 := by
    rw [List.head?_take, if_neg (by omega)]
    exact fun zero => canon (Or.inr zero)
  exact ⟨(BigEndian.bytes_value lead).symm, fun small => canon (Or.inl small), by omega⟩

/-- A short tag is `puthead` of the size it encodes. -/
theorem puthead_short {small large t : UInt8} (lt : (t - small).toNat < 56) :
    puthead small large (t - small).toNat.toUInt64 = [small + (t - small)] := by
  have exact : (t - small).toNat.toUInt64.toNat = (t - small).toNat :=
    UInt64.toNat_ofNat_of_lt' (Nat.lt_trans (t - small).toNat_lt (by decide))
  have fits : (t - small).toNat.toUInt64 < 56 := by
    rw [UInt64.lt_iff_toNat_lt, exact]
    simpa using lt
  have round : ∀ x : UInt8, x.toNat.toUInt64.toUInt8 = x := fun x => by simp
  rw [puthead, if_pos fits, round]

/-- A long tag and the size bytes after it are `puthead` of the size. -/
theorem puthead_long {small large t : UInt8} {rest : List UInt8} {size : Nat}
    (h : readSize rest (t - large).toNat = .ok size) (pos : 0 < (t - large).toNat)
    (le : (t - large).toNat ≤ 8) :
    puthead small large size.toUInt64 = (large + (t - large)) :: rest.take (t - large).toNat := by
  obtain ⟨bytes, big, room⟩ := readSize_eq_ok h pos
  have length : (BigEndian.bytes size).length = (t - large).toNat := by
    rw [← bytes, List.length_take]
    omega
  have fits : size < 2 ^ 64 := by
    have := BigEndian.length_bytes_le_iff.mp (show (BigEndian.bytes size).length ≤ 8 by omega)
    simpa using this
  rw [puthead_eq_header small large fits, header, if_neg big, length, bytes]
  simp

/-- What `readKind` accepts, by the range of the tag: the kind, the tag size,
and the content size, which fits in the input. -/
theorem readKind_cases {t : UInt8} {rest : List UInt8} {k : Kind} {tagsize size : Nat}
    (h : readKind (t :: rest) = .ok (k, tagsize, size)) :
    size ≤ rest.length + 1 - tagsize ∧
      ((t < 0x80 ∧ k = .byte ∧ tagsize = 0 ∧ size = 1) ∨
        (0x80 ≤ t ∧ t < 0xB8 ∧ ¬((t - 0x80).toNat = 1 ∧ rest.head?.any (· < 128) = true) ∧
          k = .string ∧ tagsize = 1 ∧ size = (t - 0x80).toNat) ∨
        (0xB8 ≤ t ∧ t < 0xC0 ∧ k = .string ∧ tagsize = (t - 0xB7).toNat + 1 ∧
          readSize rest (t - 0xB7).toNat = .ok size) ∨
        (0xC0 ≤ t ∧ t < 0xF8 ∧ k = .list ∧ tagsize = 1 ∧ size = (t - 0xC0).toNat) ∨
        (0xF8 ≤ t ∧ k = .list ∧ tagsize = (t - 0xF7).toNat + 1 ∧ readSize rest (t - 0xF7).toNat = .ok size)) := by
  unfold readKind at h
  obtain ⟨⟨k', tagsize', size'⟩, head, fits⟩ := Except.bind_eq_ok_iff.mp h
  dsimp only at fits
  split_ifs at fits with large
  cases fits
  refine ⟨by simp at large; omega, ?_⟩
  have above {a : UInt8} (not_below : ¬t < a) : a ≤ t := by
    simp only [UInt8.lt_iff_toNat_lt, Nat.not_lt] at not_below
    exact UInt8.le_iff_toNat_le.mpr not_below
  by_cases byte : t < 0x80
  · rw [if_pos byte] at head
    cases head
    exact .inl ⟨byte, rfl, rfl, rfl⟩
  rw [if_neg byte] at head
  by_cases short : t < 0xB8
  · rw [if_pos short] at head
    by_cases canon : (t - 0x80).toNat = 1 ∧ rest.head?.any (· < 128) = true
    · rw [if_pos canon] at head
      cases head
    · rw [if_neg canon] at head
      cases head
      exact .inr (.inl ⟨above byte, short, canon, rfl, rfl, rfl⟩)
  rw [if_neg short] at head
  by_cases long : t < 0xC0
  · rw [if_pos long] at head
    obtain ⟨size, sized, same⟩ := Except.map_eq_ok_iff.mp head
    cases same
    exact .inr (.inr (.inl ⟨above short, long, rfl, rfl, sized⟩))
  rw [if_neg long] at head
  by_cases list : t < 0xF8
  · rw [if_pos list] at head
    cases head
    exact .inr (.inr (.inr (.inl ⟨above long, list, rfl, rfl, rfl⟩)))
  rw [if_neg list] at head
  obtain ⟨size, sized, same⟩ := Except.map_eq_ok_iff.mp head
  cases same
  exact .inr (.inr (.inr (.inr ⟨above list, rfl, rfl, sized⟩)))

/-- A long tag announces one to eight size bytes. -/
theorem slen_bounds (t base : UInt8) (lo : base.toNat < t.toNat) (hi : t.toNat ≤ base.toNat + 8) :
    0 < (t - base).toNat ∧ (t - base).toNat ≤ 8 := by
  rw [UInt8.toNat_sub_of_le _ _ (UInt8.le_iff_toNat_le.mpr (Nat.le_of_lt lo))]
  omega

/-- A tag is the base of its range plus its offset. -/
theorem tag_add_sub (base t : UInt8) : base + (t - base) = t := by
  rw [UInt8.add_comm, UInt8.sub_add_cancel]

/-- The offset of a tag from the base of its range. -/
theorem toNat_tag_sub {t base : UInt8} (lo : base ≤ t) : (t - base).toNat = t.toNat - base.toNat :=
  UInt8.toNat_sub_of_le _ _ lo

/-- What `readKind` accepts is a canonical header, and the content it
announces lies inside the input. -/
theorem readKind_sound {b : List UInt8} {k : Kind} {tagsize size : Nat}
    (h : readKind b = .ok (k, tagsize, size)) :
    tagsize + size ≤ b.length ∧ CanonHeader k (b.take tagsize) ((b.drop tagsize).take size) := by
  match b with
  | [] => simp [readKind] at h
  | t :: rest =>
    obtain ⟨room, cases⟩ := readKind_cases h
    -- the tag and its size bytes lie inside the input
    have tag : tagsize ≤ rest.length + 1 := by
      rcases cases with ⟨-, -, rfl, -⟩ | ⟨-, -, -, -, rfl, -⟩ | ⟨lo, hi, -, rfl, sized⟩ | ⟨-, -, -, rfl, -⟩ |
        ⟨lo, -, rfl, sized⟩
      · omega
      · omega
      · obtain ⟨pos, -⟩ := slen_bounds t 0xB7 (by simp [UInt8.le_iff_toNat_le] at lo; simp; omega)
          (by simp [UInt8.lt_iff_toNat_lt] at hi; simp; omega)
        have := (readSize_eq_ok sized pos).2.2
        omega
      · omega
      · obtain ⟨pos, -⟩ := slen_bounds t 0xF7 (by simp [UInt8.le_iff_toNat_le] at lo; simp; omega)
          (by have := t.toNat_lt; simp; omega)
        have := (readSize_eq_ok sized pos).2.2
        omega
    refine ⟨by simp only [List.length_cons]; omega, ?_⟩
    have length : ((t :: rest).drop tagsize |>.take size).length = size := by
      simp only [List.length_take, List.length_drop, List.length_cons]
      omega
    rcases cases with ⟨byte, rfl, rfl, rfl⟩ | ⟨lo, hi, canon, rfl, rfl, rfl⟩ | ⟨lo, hi, rfl, rfl, sized⟩ |
      ⟨lo, hi, rfl, rfl, rfl⟩ | ⟨lo, rfl, rfl, sized⟩
    · exact .byte byte
    · -- a short string: a one-byte payload is at least 0x80
      have short : (t - 0x80).toNat < 56 := by
        rw [toNat_tag_sub lo]
        simp [UInt8.lt_iff_toNat_lt] at hi
        simp
        omega
      have canonical : ¬IsSingleByte ((t :: rest).drop 1 |>.take (t - 0x80).toNat) := by
        intro single
        obtain ⟨y, hy⟩ : ∃ y, ((t :: rest).drop 1 |>.take (t - 0x80).toNat) = [y] := by
          unfold IsSingleByte at single
          split at single <;> simp_all
        have one : (t - 0x80).toNat = 1 := by rw [← length, hy]; rfl
        have first : rest.head? = some y := by
          have := congrArg List.head? hy
          simpa [List.head?_take, one] using this
        have small : y < 0x80 := by rw [hy] at single; exact single
        exact canon ⟨one, by simp [first]; exact small⟩
      have header := CanonHeader.string canonical
      rwa [length, puthead_short short, tag_add_sub 0x80 t] at header
    · -- a long string
      obtain ⟨pos, le⟩ := slen_bounds t 0xB7 (by simp [UInt8.le_iff_toNat_le] at lo; simp; omega)
        (by simp [UInt8.lt_iff_toNat_lt] at hi; simp; omega)
      have big := (readSize_eq_ok sized pos).2.1
      have canonical : ¬IsSingleByte ((t :: rest).drop ((t - 0xB7).toNat + 1) |>.take size) := by
        intro single
        unfold IsSingleByte at single
        split at single
        · rename_i y hy
          have := congrArg List.length hy
          simp only [length, List.length_singleton] at this
          omega
        · exact single
      have header := CanonHeader.string canonical
      rwa [length, puthead_long sized pos le, tag_add_sub 0xB7 t] at header
    · -- a short list
      have short : (t - 0xC0).toNat < 56 := by
        rw [toNat_tag_sub lo]
        simp [UInt8.lt_iff_toNat_lt] at hi
        simp
        omega
      have header := CanonHeader.list ((t :: rest).drop 1 |>.take (t - 0xC0).toNat)
      rwa [length, puthead_short short, tag_add_sub 0xC0 t] at header
    · -- a long list
      obtain ⟨pos, le⟩ := slen_bounds t 0xF7 (by simp [UInt8.le_iff_toNat_le] at lo; simp; omega)
        (by have := t.toNat_lt; simp; omega)
      have header := CanonHeader.list ((t :: rest).drop ((t - 0xF7).toNat + 1) |>.take size)
      rwa [length, puthead_long sized pos le, tag_add_sub 0xF7 t] at header

/-- `readKind` reads every canonical header back. -/
theorem readKind_canon {k : Kind} {h content : List UInt8} (canon : CanonHeader k h content)
    (bound : content.length < 2 ^ 64) (rest : List UInt8) :
    readKind (h ++ content ++ rest) = .ok (k, h.length, content.length) := by
  cases canon with
  | byte small => exact readKind_single small rest
  | string canonical =>
    rw [puthead_eq_header 0x80 0xB7 bound]
    exact readKind_header_string rest bound canonical
  | list =>
    rw [puthead_eq_header 0xC0 0xF7 bound]
    exact readKind_header_list rest bound

theorem split_canon {k : Kind} {h content : List UInt8} (canon : CanonHeader k h content)
    (bound : content.length < 2 ^ 64) (rest : List UInt8) :
    split (h ++ content ++ rest) = .ok (k, content, rest) := by
  rw [split, readKind_canon canon bound rest, Except.map_ok_eq]
  simp only [List.append_assoc, ← List.drop_drop, List.drop_left, List.take_left]

/-- `Split` accepts exactly a canonical header, its content and what follows. -/
theorem split_iff {b content rest : List UInt8} {k : Kind} (bound : b.length < 2 ^ 64) :
    split b = .ok (k, content, rest) ↔ ∃ h, CanonHeader k h content ∧ b = h ++ content ++ rest := by
  constructor
  · intro splits
    obtain ⟨⟨k', tagsize, size⟩, read, same⟩ := Except.map_eq_ok_iff.mp splits
    simp only [Prod.mk.injEq] at same
    obtain ⟨rfl, rfl, rfl⟩ := same
    refine ⟨b.take tagsize, (readKind_sound read).2, ?_⟩
    rw [List.append_assoc, ← List.drop_drop, List.take_append_drop, List.take_append_drop]
  · rintro ⟨h, canon, rfl⟩
    exact split_canon canon (by simp only [List.length_append] at bound; omega) rest

/-- The items of a concatenation, each a canonical header and its content. -/
def flattenItems (items : List (Kind × List UInt8 × List UInt8)) : List UInt8 :=
  (items.map fun item => item.2.1 ++ item.2.2).flatten

theorem countValuesLoop_canon :
    ∀ (items : List (Kind × List UInt8 × List UInt8)) (fuel : Nat),
      (∀ item ∈ items, CanonHeader item.1 item.2.1 item.2.2) →
      (flattenItems items).length ≤ fuel → (flattenItems items).length < 2 ^ 64 →
      countValuesLoop fuel (flattenItems items) = .ok items.length
  | [], fuel, _, _, _ => by cases fuel <;> rfl
  | (k, h, content) :: items, fuel, canon, room, bound => by
    have first : CanonHeader k h content := canon (k, h, content) (List.mem_cons_self ..)
    have flat : flattenItems ((k, h, content) :: items) = h ++ content ++ flattenItems items := by
      simp [flattenItems]
    rw [flat] at room bound ⊢
    have nonempty := first.ne_nil
    have lengths : (h ++ content ++ flattenItems items).length =
        h.length + content.length + (flattenItems items).length := by simp only [List.length_append]
    have pos : 0 < h.length + content.length := by
      simpa only [List.length_append] using List.length_pos_of_ne_nil nonempty
    obtain ⟨fuel, rfl⟩ : ∃ f, fuel = f + 1 := ⟨fuel - 1, by omega⟩
    have read := readKind_canon first (by omega) (flattenItems items)
    have tail := countValuesLoop_canon items fuel (fun item mem => canon item (List.mem_cons_of_mem _ mem))
      (by omega) (by omega)
    obtain ⟨x, xs, hx⟩ := List.exists_cons_of_length_pos (by omega : 0 < (h ++ content ++ flattenItems items).length)
    rw [hx, countValuesLoop, ← hx, read]
    simp only [Except.bind_ok_eq, List.append_assoc, List.drop_left, ← List.drop_drop, tail,
      Except.map_ok_eq, List.length_cons]

theorem countValuesLoop_sound :
    ∀ (fuel : Nat) (b : List UInt8) (n : Nat), countValuesLoop fuel b = .ok n →
      ∃ items : List (Kind × List UInt8 × List UInt8), items.length = n ∧
        (∀ item ∈ items, CanonHeader item.1 item.2.1 item.2.2) ∧ b = flattenItems items
  | fuel, [], n, h => by
    have zero : n = 0 := by
      cases fuel <;> simpa only [countValuesLoop, Except.ok.injEq, eq_comm] using h
    exact ⟨[], zero.symm, fun _ mem => absurd mem List.not_mem_nil, rfl⟩
  | 0, _ :: _, _, h => by cases h
  | fuel + 1, x :: xs, n, h => by
    rw [countValuesLoop] at h
    obtain ⟨⟨k, tagsize, size⟩, read, later⟩ := Except.bind_eq_ok_iff.mp h
    obtain ⟨n', counted, rfl⟩ := Except.map_eq_ok_iff.mp later
    obtain ⟨items, length, canon, flat⟩ := countValuesLoop_sound fuel _ n' counted
    refine ⟨(k, (x :: xs).take tagsize, ((x :: xs).drop tagsize).take size) :: items, by simp [length], ?_, ?_⟩
    · intro item mem
      rcases List.mem_cons.mp mem with rfl | later
      · exact (readKind_sound read).2
      · exact canon item later
    · have whole := List.take_append_drop tagsize (x :: xs)
      rw [← List.take_append_drop size ((x :: xs).drop tagsize), List.drop_drop, flat] at whole
      calc x :: xs = (x :: xs).take tagsize ++ (((x :: xs).drop tagsize).take size ++ flattenItems items) :=
            whole.symm
        _ = flattenItems (_ :: items) := by simp [flattenItems]

/-- `CountValues` counts exactly the items of a concatenation of canonical
items. -/
theorem countValues_iff {b : List UInt8} {n : Nat} (bound : b.length < 2 ^ 64) :
    countValues b = .ok n ↔ ∃ items : List (Kind × List UInt8 × List UInt8), items.length = n ∧
      (∀ item ∈ items, CanonHeader item.1 item.2.1 item.2.2) ∧ b = flattenItems items := by
  constructor
  · exact countValuesLoop_sound _ b n
  · rintro ⟨items, rfl, canon, rfl⟩
    exact countValuesLoop_canon items _ canon le_rfl bound

/-- `Split` and `CountValues` accept exactly canonical items: a header the
encoder writes, then its content. -/
theorem split_canonical {b : List UInt8} (bound : b.length < 2 ^ 64) :
    (∀ k content rest, split b = .ok (k, content, rest) ↔
      ∃ h, CanonHeader k h content ∧ b = h ++ content ++ rest) ∧
    (∀ n, countValues b = .ok n ↔ ∃ items : List (Kind × List UInt8 × List UInt8), items.length = n ∧
      (∀ item ∈ items, CanonHeader item.1 item.2.1 item.2.2) ∧ b = flattenItems items) :=
  ⟨fun _ _ _ => split_iff bound, fun _ => countValues_iff bound⟩

theorem split_canonical_pair :
    [0xC2, 0x05, 0x81].length < 2 ^ 64 ∧
      ((∀ k content rest, split [0xC2, 0x05, 0x81] = .ok (k, content, rest) ↔
        ∃ h, CanonHeader k h content ∧ [0xC2, 0x05, 0x81] = h ++ content ++ rest) ∧
      (∀ n, countValues [0xC2, 0x05, 0x81] = .ok n ↔
        ∃ items : List (Kind × List UInt8 × List UInt8), items.length = n ∧
          (∀ item ∈ items, CanonHeader item.1 item.2.1 item.2.2) ∧ [0xC2, 0x05, 0x81] = flattenItems items)) :=
  ⟨by decide, split_canonical (by decide)⟩

/-- The header `puthead` writes for a one-byte string below `0x80`, which the
encoder never writes, is refused: such a byte is its own encoding. -/
theorem split_small_string :
    [0x81, 0x05] = puthead 0x80 0xB7 ([0x05] : List UInt8).length.toUInt64 ++ [0x05] ++ [] ∧
      split [0x81, 0x05] = .error .errCanonSize :=
  ⟨rfl, rfl⟩

end FiscoBcos.Rlp
