import FiscoBcos.Rlp.Stream
import FiscoBcos.Rlp.Item
import Mathlib

/-!
# Specifications of the stream operations

One lemma per operation of `Stream`, so that the decoders' proofs never
unfold it. A successful read of `n` bytes does what `charge` says: it re-arms
`Kind` and charges the bytes to the innermost list and to the input limit, and
it succeeds exactly when `Room` holds, that is when neither would overflow.

The headers are specified both ways: `readKind` reads every canonical header
`header st lt n` back as its kind and size, and whatever it reads without an
error is such a header (`readKind_sound`).
-/

namespace FiscoBcos.Rlp

/-- The header that `readKind` reads for a value of kind `k` and size `n`:
a byte below `0x80` is its own header. -/
def kindHeader : Kind → Nat → UInt8 → List UInt8
  | .byte, _, b => [b]
  | .string, n, _ => header 0x80 0xB7 n
  | .list, n, _ => header 0xC0 0xF7 n

/-- A tag plus a size that does not overflow the byte. -/
theorem toNat_tag_add {t : UInt8} {n : Nat} (h : t.toNat + n < 256) :
    (t + n.toUInt8).toNat = t.toNat + n := by
  simp [UInt8.toNat_add, Nat.toUInt8]
  omega

/-- A tag byte `b` read back as the short header of its offset from `t`. -/
theorem header_short {st lt b : UInt8} (small : (b - st).toNat < 56) :
    header st lt (b - st).toNat = [b] := by
  have cancel : st + (b - st) = b := by grind
  simp only [header, small, if_true, Nat.toUInt8, UInt8.ofNat_toNat, cancel]

/-- A long header read back: the tag counts the size bytes, which are the
minimal big-endian bytes of a size of at least 56. -/
theorem header_long {st lt b : UInt8} {size : Nat} {buf : List UInt8} (big : ¬size < 56)
    (bytes : BigEndian.bytes size = buf) (len : buf.length = (b - lt).toNat) :
    header st lt size = b :: buf := by
  have cancel : lt + (b - lt) = b := by grind
  simp only [header, big, if_false, bytes, len, Nat.toUInt8, UInt8.ofNat_toNat, cancel]

namespace Stream

/-- Charge `n` bytes to the innermost open list. -/
def bump : List Listpos → Nat → List Listpos
  | [], _ => []
  | tos :: outer, n => { tos with pos := tos.pos + n } :: outer

/-- The stream after `willRead n` succeeded. -/
def charge (s : Stream) (n : Nat) : Stream :=
  { s with
    kind := none
    stack := bump s.stack n
    remaining := if s.limited then s.remaining - n else s.remaining }

/-- Room for `n` more bytes in the innermost list and under the input
limit. -/
structure Room (s : Stream) (n : Nat) : Prop where
  list : ∀ tos outer, s.stack = tos :: outer → n ≤ tos.size - tos.pos
  limit : s.limited = true → n ≤ s.remaining

-- The equations of `bump` and `charge`, stated once so that the proofs below
-- rewrite with them instead of each unfolding the definitions again.
theorem bump_nil (n : Nat) : bump [] n = [] := rfl

theorem bump_cons (tos : Listpos) (outer : List Listpos) (n : Nat) :
    bump (tos :: outer) n = { tos with pos := tos.pos + n } :: outer := rfl

theorem charge_eq (s : Stream) (n : Nat) :
    s.charge n = { s with
      kind := none
      stack := bump s.stack n
      remaining := if s.limited then s.remaining - n else s.remaining } := rfl

@[simp] theorem bump_zero (stack : List Listpos) : bump stack 0 = stack := by
  cases stack <;> simp [bump_nil, bump_cons]

theorem bump_bump (stack : List Listpos) (a b : Nat) :
    bump (bump stack a) b = bump stack (a + b) := by
  cases stack <;> simp [bump_nil, bump_cons, Nat.add_assoc]

@[simp] theorem charge_r (s : Stream) (n : Nat) : (s.charge n).r = s.r := rfl
@[simp] theorem charge_limited (s : Stream) (n : Nat) : (s.charge n).limited = s.limited := rfl
@[simp] theorem charge_kind (s : Stream) (n : Nat) : (s.charge n).kind = none := rfl
@[simp] theorem charge_stack (s : Stream) (n : Nat) : (s.charge n).stack = bump s.stack n := rfl
@[simp] theorem charge_byteval (s : Stream) (n : Nat) : (s.charge n).byteval = s.byteval := rfl

/-- Room for `a + b` bytes leaves room for `b` after `a` are charged. -/
theorem Room.charge {s : Stream} {a b : Nat} (room : s.Room (a + b)) : (s.charge a).Room b where
  list tos outer h := by
    cases hst : s.stack with
    | nil => simp [hst, bump_nil] at h
    | cons top rest =>
      simp only [charge_stack, hst, bump_cons, List.cons.injEq] at h
      obtain ⟨rfl, -⟩ := h
      have := room.list top rest hst
      simp only
      omega
  limit h := by
    rw [charge_limited] at h
    have := room.limit h
    simp only [charge_eq, h, if_true]
    omega

theorem Room.with {s : Stream} {n : Nat} (room : s.Room n) (r : List UInt8) (b : UInt8) :
    ({ s with r := r, byteval := b } : Stream).Room n :=
  ⟨room.list, room.limit⟩

theorem Room.of_with {s : Stream} {n : Nat} {r : List UInt8} {b : UInt8}
    (room : ({ s with r := r, byteval := b } : Stream).Room n) : s.Room n :=
  ⟨room.list, room.limit⟩

/-- Room depends on the list positions and the limit alone. -/
theorem Room.congr {s t : Stream} {n : Nat} (room : s.Room n) (hst : t.stack = s.stack)
    (hl : t.limited = s.limited) (hrem : t.remaining = s.remaining) : t.Room n where
  list tos outer h := room.list tos outer (hst ▸ h)
  limit h := hrem ▸ room.limit (hl ▸ h)

theorem Room.mono {s : Stream} {a b : Nat} (room : s.Room b) (le : a ≤ b) : s.Room a where
  list tos outer h := le_trans le (room.list tos outer h)
  limit h := le_trans le (room.limit h)

/-! ## Reads -/

theorem takeRemaining_eq_none_iff {s s' : Stream} {n : Nat} :
    s.takeRemaining n = (none, s') ↔
      (s.limited = true → n ≤ s.remaining) ∧
        s' = { s with remaining := if s.limited then s.remaining - n else s.remaining } := by
  obtain ⟨r, remaining, limited, kind, size, byteval, kinderr, stack⟩ := s
  unfold takeRemaining
  cases limited with
  | false => simp [eq_comm]
  | true =>
    by_cases tooMuch : n > remaining
    · simp only [tooMuch, if_true, Prod.mk.injEq, reduceCtorEq, false_and, false_iff]
      rintro ⟨fits, -⟩
      exact absurd (fits trivial) (by omega)
    · simp [tooMuch, eq_comm]
      omega

theorem willRead_eq_none_iff {s s' : Stream} {n : Nat} :
    s.willRead n = (none, s') ↔ s.Room n ∧ s' = s.charge n := by
  unfold willRead
  cases hst : s.stack with
  | nil =>
    simp only [takeRemaining_eq_none_iff]
    constructor
    · rintro ⟨limit, rfl⟩
      exact ⟨⟨by simp [hst], limit⟩, by simp [charge_eq, hst, bump_nil]⟩
    · rintro ⟨room, rfl⟩
      exact ⟨room.limit, by simp [charge_eq, hst, bump_nil]⟩
  | cons tos outer =>
    by_cases tooMuch : n > tos.size - tos.pos
    · simp only [tooMuch, if_true, Prod.mk.injEq, reduceCtorEq, false_and, false_iff]
      rintro ⟨room, -⟩
      have := room.list tos outer hst
      omega
    · simp only [tooMuch, if_false, takeRemaining_eq_none_iff]
      constructor
      · rintro ⟨limit, rfl⟩
        refine ⟨⟨fun t o h => ?_, limit⟩, by simp [charge_eq, hst, bump_cons]⟩
        simp only [hst, List.cons.injEq] at h
        obtain ⟨rfl, -⟩ := h
        omega
      · rintro ⟨room, rfl⟩
        exact ⟨room.limit, by simp [charge_eq, hst, bump_cons]⟩

theorem willRead_of_room {s : Stream} {n : Nat} (room : s.Room n) :
    s.willRead n = (none, s.charge n) :=
  Iff.mpr willRead_eq_none_iff ⟨room, rfl⟩

theorem readByte_eq_ok_iff {s s' : Stream} {b : UInt8} :
    s.readByte = (.ok b, s') ↔ s.Room 1 ∧ ∃ rest, s.r = b :: rest ∧ s' = { s.charge 1 with r := rest } := by
  unfold readByte
  rcases hw : s.willRead 1 with ⟨_ | e, s1⟩
  · obtain ⟨room, rfl⟩ := Iff.mp willRead_eq_none_iff hw
    cases hr : s.r with
    | nil => simp [hr]
    | cons c rest => simp [hr, room, eq_comm]
  · simp only [reduceCtorEq, false_and, false_iff, Prod.mk.injEq]
    rintro ⟨room, -⟩
    rw [willRead_of_room room] at hw
    cases hw

theorem readFull_eq_ok_iff {s s' : Stream} {n : Nat} {bs : List UInt8} :
    s.readFull n = (.ok bs, s') ↔
      s.Room n ∧ ∃ rest, s.r = bs ++ rest ∧ bs.length = n ∧ s' = { s.charge n with r := rest } := by
  unfold readFull
  rcases hw : s.willRead n with ⟨_ | e, s1⟩
  · obtain ⟨room, rfl⟩ := Iff.mp willRead_eq_none_iff hw
    by_cases enough : n ≤ s.r.length
    · simp only [charge_r, enough, if_true, Prod.mk.injEq, Except.ok.injEq, room, true_and]
      constructor
      · rintro ⟨rfl, rfl⟩
        exact ⟨_, (List.take_append_drop n s.r).symm, by simp [enough], rfl⟩
      · rintro ⟨rest, hr, rfl, rfl⟩
        simp [hr]
    · simp only [charge_r, enough, if_false, Prod.mk.injEq, reduceCtorEq, false_and, false_iff]
      rintro ⟨-, rest, hr, rfl, -⟩
      simp [hr] at enough
  · simp only [reduceCtorEq, false_and, false_iff, Prod.mk.injEq]
    rintro ⟨room, -⟩
    rw [willRead_of_room room] at hw
    cases hw

theorem readUint_bytes {s : Stream} {n len : Nat} {rest} (pos : 0 < n)
    (hlen : (BigEndian.bytes n).length = len) (hr : s.r = BigEndian.bytes n ++ rest)
    (room : s.Room len) :
    s.readUint len = (.ok n, { s.charge len with r := rest }) := by
  subst hlen
  have value := BigEndian.value_bytes n
  have lead : ∀ c tail, BigEndian.bytes n = c :: tail → c ≠ 0 :=
    fun _ _ h => BigEndian.head_bytes_ne_zero h
  generalize BigEndian.bytes n = bs at hr room value lead ⊢
  match bs, hr, room, value, lead with
  | [], _, _, value, _ =>
    simp only [BigEndian.value_nil] at value
    omega
  | [c], hr, room, value, _ =>
    have read := Iff.mpr readByte_eq_ok_iff ⟨room, rest, hr, rfl⟩
    simp only [BigEndian.value_cons, List.length_nil, pow_zero, Nat.mul_one, BigEndian.value_nil,
      Nat.add_zero] at value
    simp [readUint, read, value]
  | c :: d :: tail, hr, room, value, lead =>
    have read : s.readFull (tail.length + 2) =
        (.ok (c :: d :: tail), { s.charge (tail.length + 2) with r := rest }) :=
      Iff.mpr readFull_eq_ok_iff ⟨room, rest, hr, rfl, rfl⟩
    show s.readUint (tail.length + 2) = _
    simp only [readUint, read]
    simp [lead c (d :: tail) rfl, value]

theorem readUint_sound {s s' : Stream} {size v : Nat} (pos : 0 < size)
    (h : s.readUint size = (.ok v, s')) :
    s.Room size ∧ ∃ buf rest, s.r = buf ++ rest ∧ buf.length = size ∧ v = BigEndian.value buf ∧
      (0 < v → BigEndian.bytes v = buf) ∧ s' = { s.charge size with r := rest } := by
  match size, pos, h with
  | 1, _, h =>
    simp only [readUint] at h
    rcases hb : s.readByte with ⟨_ | b, s1⟩ <;> rw [hb] at h
    · cases h
    · simp only [Prod.mk.injEq, Except.ok.injEq] at h
      obtain ⟨rfl, rfl⟩ := h
      obtain ⟨room, rest, hr, rfl⟩ := Iff.mp readByte_eq_ok_iff (by simpa using hb)
      have value : BigEndian.value [b] = b.toNat := by simp [BigEndian.value_cons]
      refine ⟨room, [b], rest, hr, rfl, value.symm, fun nonzero => ?_, rfl⟩
      have lead : [b].head? ≠ some 0 := by
        intro zero
        simp only [List.head?_cons, Option.some.injEq] at zero
        simp [zero] at nonzero
      rw [← value]
      exact BigEndian.bytes_value lead
  | size + 2, _, h =>
    simp only [readUint] at h
    rcases hf : s.readFull (size + 2) with ⟨_ | buf, s1⟩ <;> rw [hf] at h
    · cases h
    · obtain ⟨room, rest, hr, len, rfl⟩ := Iff.mp readFull_eq_ok_iff (by simpa using hf)
      by_cases lead : buf.head? = some 0
      · simp [lead] at h
      · simp only [lead, if_false, Prod.mk.injEq, Except.ok.injEq] at h
        obtain ⟨rfl, rfl⟩ := h
        exact ⟨room, buf, rest, hr, len, rfl, fun _ => BigEndian.bytes_value lead, rfl⟩

theorem Room.of_charge {s : Stream} {a b : Nat} (first : s.Room a) (second : (s.charge a).Room b) :
    s.Room (a + b) where
  list tos outer h := by
    have := first.list tos outer h
    have := second.list { tos with pos := tos.pos + a } outer (by simp [h, bump_cons])
    simp only at this
    omega
  limit h := by
    have := first.limit h
    have := second.limit (by simpa using h)
    simp only [charge_eq, h, if_true] at this
    omega

/-! ## Headers -/

theorem readKind_byte {s : Stream} {b : UInt8} {rest} (small : b < 0x80) (hr : s.r = b :: rest)
    (room : s.Room 1) :
    s.readKind = ((.byte, 0, none), { s.charge 1 with r := rest, byteval := b }) := by
  have read := Iff.mpr readByte_eq_ok_iff ⟨room, rest, hr, rfl⟩
  simp [readKind, read, small]

/-- The size bytes of a long header: at least one, at most eight. -/
theorem length_bytes_size {n : Nat} (hn : n < 2 ^ 64) (big : ¬n < 56) :
    0 < (BigEndian.bytes n).length ∧ (BigEndian.bytes n).length ≤ 8 := by
  refine ⟨List.length_pos_of_ne_nil (by simp; omega), ?_⟩
  exact BigEndian.length_bytes_le_iff.mpr (by simpa using hn)

theorem readKind_string {s : Stream} {n : Nat} {rest} (hn : n < 2 ^ 64)
    (hr : s.r = header 0x80 0xB7 n ++ rest) (room : s.Room (header 0x80 0xB7 n).length) :
    s.readKind =
      ((.string, n, none), { s.charge (header 0x80 0xB7 n).length with r := rest, byteval := 0 }) := by
  by_cases short : n < 56
  · have tag : ((0x80 : UInt8) + n.toUInt8).toNat = 128 + n := toNat_tag_add (by simp; omega)
    simp only [header, short, if_true, List.singleton_append, List.length_singleton] at hr room ⊢
    have read := Iff.mpr readByte_eq_ok_iff ⟨room, rest, hr, rfl⟩
    have size : ((0x80 : UInt8) + n.toUInt8 - 0x80).toNat = n := by
      rw [UInt8.toNat_sub_of_le _ _ (by simp [UInt8.le_iff_toNat_le, tag]), tag]
      simp
    simp only [readKind, read]
    rw [if_neg (by simp only [UInt8.lt_iff_toNat_lt, tag, UInt8.toNat_ofNat]; omega),
      if_pos (by simp only [UInt8.lt_iff_toNat_lt, tag, UInt8.toNat_ofNat]; omega), size]
  · obtain ⟨len_pos, len_le⟩ := length_bytes_size hn short
    generalize hlen : (BigEndian.bytes n).length = len at len_pos len_le
    have tag : ((0xB7 : UInt8) + len.toUInt8).toNat = 183 + len := toNat_tag_add (by simp; omega)
    simp only [header, short, if_false, hlen, List.cons_append, List.length_cons] at hr room ⊢
    have read := Iff.mpr readByte_eq_ok_iff ⟨room.mono (by omega), BigEndian.bytes n ++ rest, hr, rfl⟩
    have size : ((0xB7 : UInt8) + len.toUInt8 - 0xB7).toNat = len := by
      rw [UInt8.toNat_sub_of_le _ _ (by simp [UInt8.le_iff_toNat_le, tag]), tag]
      simp
    have room' : (s.charge 1).Room len := Room.charge (by rwa [Nat.add_comm] at room)
    simp only [readKind, read]
    rw [if_neg (by simp only [UInt8.lt_iff_toNat_lt, tag, UInt8.toNat_ofNat]; omega),
      if_neg (by simp only [UInt8.lt_iff_toNat_lt, tag, UInt8.toNat_ofNat]; omega),
      if_pos (by simp only [UInt8.lt_iff_toNat_lt, tag, UInt8.toNat_ofNat]; omega), size,
      readUint_bytes (by omega) hlen rfl (room'.with _ _)]
    simp only [canonSize, short, if_false, charge_eq, bump_bump, Nat.add_comm 1 len, Prod.mk.injEq,
      true_and]
    split_ifs
    · simp only [Nat.sub_sub, Nat.add_comm 1 len]
    · rfl

theorem readKind_list {s : Stream} {n : Nat} {rest} (hn : n < 2 ^ 64)
    (hr : s.r = header 0xC0 0xF7 n ++ rest) (room : s.Room (header 0xC0 0xF7 n).length) :
    s.readKind =
      ((.list, n, none), { s.charge (header 0xC0 0xF7 n).length with r := rest, byteval := 0 }) := by
  by_cases short : n < 56
  · have tag : ((0xC0 : UInt8) + n.toUInt8).toNat = 192 + n := toNat_tag_add (by simp; omega)
    simp only [header, short, if_true, List.singleton_append, List.length_singleton] at hr room ⊢
    have read := Iff.mpr readByte_eq_ok_iff ⟨room, rest, hr, rfl⟩
    have size : ((0xC0 : UInt8) + n.toUInt8 - 0xC0).toNat = n := by
      rw [UInt8.toNat_sub_of_le _ _ (by simp [UInt8.le_iff_toNat_le, tag]), tag]
      simp
    simp only [readKind, read]
    rw [if_neg (by simp only [UInt8.lt_iff_toNat_lt, tag, UInt8.toNat_ofNat]; omega),
      if_neg (by simp only [UInt8.lt_iff_toNat_lt, tag, UInt8.toNat_ofNat]; omega),
      if_neg (by simp only [UInt8.lt_iff_toNat_lt, tag, UInt8.toNat_ofNat]; omega),
      if_pos (by simp only [UInt8.lt_iff_toNat_lt, tag, UInt8.toNat_ofNat]; omega), size]
  · obtain ⟨len_pos, len_le⟩ := length_bytes_size hn short
    generalize hlen : (BigEndian.bytes n).length = len at len_pos len_le
    have tag : ((0xF7 : UInt8) + len.toUInt8).toNat = 247 + len := toNat_tag_add (by simp; omega)
    simp only [header, short, if_false, hlen, List.cons_append, List.length_cons] at hr room ⊢
    have read := Iff.mpr readByte_eq_ok_iff ⟨room.mono (by omega), BigEndian.bytes n ++ rest, hr, rfl⟩
    have size : ((0xF7 : UInt8) + len.toUInt8 - 0xF7).toNat = len := by
      rw [UInt8.toNat_sub_of_le _ _ (by simp [UInt8.le_iff_toNat_le, tag]), tag]
      simp
    have room' : (s.charge 1).Room len := Room.charge (by rwa [Nat.add_comm] at room)
    simp only [readKind, read]
    rw [if_neg (by simp only [UInt8.lt_iff_toNat_lt, tag, UInt8.toNat_ofNat]; omega),
      if_neg (by simp only [UInt8.lt_iff_toNat_lt, tag, UInt8.toNat_ofNat]; omega),
      if_neg (by simp only [UInt8.lt_iff_toNat_lt, tag, UInt8.toNat_ofNat]; omega),
      if_neg (by simp only [UInt8.lt_iff_toNat_lt, tag, UInt8.toNat_ofNat]; omega), size,
      readUint_bytes (by omega) hlen rfl (room'.with _ _)]
    simp only [canonSize, short, if_false, charge_eq, bump_bump, Nat.add_comm 1 len, Prod.mk.injEq,
      true_and]
    split_ifs
    · simp only [Nat.sub_sub, Nat.add_comm 1 len]
    · rfl

/-- The size bytes after a long tag, read back: minimal, and charged
together with the tag. -/
theorem readUint_long {s s2 : Stream} {rest : List UInt8} {len size : Nat} (pos : 0 < len)
    (room : s.Room 1) (big : ¬size < 56)
    (h : ({ s.charge 1 with r := rest, byteval := 0 } : Stream).readUint len = (.ok size, s2)) :
    s.Room (1 + len) ∧ rest = BigEndian.bytes size ++ s2.r ∧ (BigEndian.bytes size).length = len ∧
      s2 = { s.charge (1 + len) with r := s2.r, byteval := 0 } := by
  obtain ⟨room', buf, rest', hr, hlen, value, bytes, rfl⟩ := readUint_sound pos h
  have minimal : BigEndian.bytes size = buf := bytes (by omega)
  refine ⟨Room.of_charge room room'.of_with, by simpa [minimal] using hr, by rw [minimal, hlen], ?_⟩
  simp only [charge_eq, bump_bump, Stream.mk.injEq, true_and]
  split_ifs
  · simp [Nat.sub_sub]
  · simp

theorem readKind_sound {s s1 : Stream} {k : Kind} {n : Nat}
    (h : s.readKind = ((k, n, none), s1)) :
    s.Room (kindHeader k n s1.byteval).length ∧ s.r = kindHeader k n s1.byteval ++ s1.r ∧
      s1 = { s.charge (kindHeader k n s1.byteval).length with r := s1.r, byteval := s1.byteval } ∧
      (k = .byte → n = 0 ∧ s1.byteval < 0x80) := by
  unfold readKind at h
  rcases hb : s.readByte with ⟨e | b, s0⟩ <;> rw [hb] at h
  · simp at h
  obtain ⟨room, rest, hr, rfl⟩ := Iff.mp readByte_eq_ok_iff hb
  simp only at h
  by_cases c1 : b < 0x80
  · -- a single byte
    simp only [c1, if_true, Prod.mk.injEq] at h
    obtain ⟨⟨rfl, rfl, -⟩, rfl⟩ := h
    exact ⟨room, hr, rfl, fun _ => ⟨rfl, c1⟩⟩
  have b128 : 128 ≤ b.toNat := by simpa [UInt8.lt_iff_toNat_lt] using c1
  by_cases c2 : b < 0xB8
  · -- a short string
    simp only [c1, c2, if_false, if_true, Prod.mk.injEq] at h
    obtain ⟨⟨rfl, rfl, -⟩, rfl⟩ := h
    have small : (b - 0x80).toNat < 56 := by
      rw [UInt8.toNat_sub_of_le _ _ (by simpa [UInt8.le_iff_toNat_le] using b128)]
      simp [UInt8.lt_iff_toNat_lt] at c2
      simp
      omega
    simp only [kindHeader, header_short small]
    exact ⟨room, hr, rfl, nofun⟩
  by_cases c3 : b < 0xC0
  · -- a long string
    simp only [c1, c2, c3, if_false, if_true] at h
    have len_pos : 0 < (b - 0xB7).toNat := by
      simp [UInt8.lt_iff_toNat_lt] at c2
      rw [UInt8.toNat_sub_of_le _ _ (by simp [UInt8.le_iff_toNat_le]; omega)]
      simp
      omega
    split at h
    · simp at h
    · rename_i size s2 hu
      simp only [Prod.mk.injEq, canonSize] at h
      obtain ⟨⟨rfl, rfl, big⟩, rfl⟩ := h
      have big : ¬size < 56 := by simpa using big
      obtain ⟨room', hrest, hlen, hs2⟩ := readUint_long len_pos room big hu
      have byteval : s2.byteval = 0 := by rw [hs2]
      rw [kindHeader, header_long big rfl hlen, List.length_cons, hlen, byteval, Nat.add_comm]
      exact ⟨room', by simp [hr, hrest], hs2, nofun⟩
  have b192 : 192 ≤ b.toNat := by simpa [UInt8.lt_iff_toNat_lt] using c3
  by_cases c4 : b < 0xF8
  · -- a short list
    simp only [c1, c2, c3, c4, if_false, if_true, Prod.mk.injEq] at h
    obtain ⟨⟨rfl, rfl, -⟩, rfl⟩ := h
    have small : (b - 0xC0).toNat < 56 := by
      rw [UInt8.toNat_sub_of_le _ _ (by simpa [UInt8.le_iff_toNat_le] using b192)]
      simp [UInt8.lt_iff_toNat_lt] at c4
      simp
      omega
    simp only [kindHeader, header_short small]
    exact ⟨room, hr, rfl, nofun⟩
  · -- a long list
    simp only [c1, c2, c3, c4, if_false] at h
    have b248 : 248 ≤ b.toNat := by simpa [UInt8.lt_iff_toNat_lt] using c4
    have len_pos : 0 < (b - 0xF7).toNat := by
      rw [UInt8.toNat_sub_of_le _ _ (by simp [UInt8.le_iff_toNat_le]; omega)]
      simp
      omega
    split at h
    · simp at h
    · rename_i size s2 hu
      simp only [Prod.mk.injEq, canonSize] at h
      obtain ⟨⟨rfl, rfl, big⟩, rfl⟩ := h
      have big : ¬size < 56 := by simpa using big
      obtain ⟨room', hrest, hlen, hs2⟩ := readUint_long len_pos room big hu
      have byteval : s2.byteval = 0 := by rw [hs2]
      rw [kindHeader, header_long big rfl hlen, List.length_cons, hlen, byteval, Nat.add_comm]
      exact ⟨room', by simp [hr, hrest], hs2, nofun⟩

/-! ## Kind -/

theorem sizeErr_of_room {s : Stream} {n : Nat} (room : s.Room n) : s.sizeErr n = none := by
  unfold sizeErr
  cases hst : s.stack with
  | nil =>
    cases hl : s.limited
    · simp
    · simp [room.limit hl]
  | cons tos outer => simp [room.list tos outer hst]

theorem Kind_cached {s : Stream} {k : Kind} (hk : s.kind = some k) :
    s.Kind = ((k, s.size, s.kinderr), s) := by
  simp [Stream.Kind, hk]

theorem Kind_eol {s : Stream} {tos : Listpos} {outer} (hk : s.kind = none)
    (hst : s.stack = tos :: outer) (at_end : tos.pos = tos.size) :
    s.Kind = ((.byte, 0, some .eol), { s with kinderr := none }) := by
  simp [Stream.Kind, hk, hst, at_end]

theorem Kind_armed {s : Stream} (hk : s.kind = none)
    (open_list : ∀ tos outer, s.stack = tos :: outer → tos.pos ≠ tos.size) :
    s.Kind = ({ s with kinderr := none } : Stream).readKindChecked := by
  unfold Stream.Kind
  rw [hk]
  cases hst : s.stack with
  | nil => simp
  | cons tos outer => simp [open_list tos outer hst]

theorem readKindChecked_eq_ok_iff {s s2 : Stream} {k : Kind} {n : Nat} :
    s.readKindChecked = ((k, n, none), s2) ↔
      ∃ s1, s.readKind = ((k, n, none), s1) ∧ s1.sizeErr n = none ∧
        s2 = { s1 with kind := some k, size := n, kinderr := none } := by
  unfold readKindChecked
  rcases hr : s.readKind with ⟨⟨k1, n1, err⟩, s1⟩
  constructor
  · intro h
    simp only [Prod.mk.injEq, Option.orElse_eq_none] at h
    obtain ⟨⟨rfl, rfl, rfl, fits⟩, rfl⟩ := h
    exact ⟨s1, rfl, fits, by simp [fits]⟩
  · rintro ⟨s1', h, fits, rfl⟩
    simp only [Prod.mk.injEq] at h
    obtain ⟨⟨rfl, rfl, rfl⟩, rfl⟩ := h
    simp [fits]

/-! ## Consumption -/

/-- `s'` has read `bytes` from `s`: the input has moved past them, and they
were charged to the innermost list and to the input limit. -/
structure Consumed (s : Stream) (bytes : List UInt8) (s' : Stream) : Prop where
  r : s.r = bytes ++ s'.r
  stack : s'.stack = bump s.stack bytes.length
  limited : s'.limited = s.limited
  remaining : s'.remaining = if s.limited then s.remaining - bytes.length else s.remaining

/-- Rearming `Kind` reads nothing. -/
theorem Consumed.rearm {s s' : Stream} {bytes : List UInt8} (h : Consumed s bytes s') :
    Consumed s bytes { s' with kind := none } :=
  ⟨h.r, h.stack, h.limited, h.remaining⟩

theorem Consumed.trans {s1 s2 s3 : Stream} {a b : List UInt8} (first : Consumed s1 a s2)
    (second : Consumed s2 b s3) : Consumed s1 (a ++ b) s3 where
  r := by rw [first.r, second.r, List.append_assoc]
  stack := by rw [second.stack, first.stack, bump_bump, List.length_append]
  limited := second.limited.trans first.limited
  remaining := by
    rw [second.remaining, first.limited, first.remaining, List.length_append]
    split_ifs <;> simp [Nat.sub_sub]

/-- What is left of the room after a read. -/
theorem Consumed.room {s s' : Stream} {a : List UInt8} {n : Nat} (c : Consumed s a s')
    (room : s.Room (a.length + n)) : s'.Room n where
  list tos outer h := by
    cases hst : s.stack with
    | nil => simp [c.stack, hst, bump_nil] at h
    | cons top rest =>
      rw [c.stack, hst, bump_cons, List.cons.injEq] at h
      obtain ⟨rfl, -⟩ := h
      have := room.list top rest hst
      simp only
      omega
  limit h := by
    rw [c.limited] at h
    have := room.limit h
    rw [c.remaining, h, if_pos rfl]
    omega

/-- A read of nothing. -/
theorem consumed_nil {s s' : Stream} (hr : s'.r = s.r) (hst : s'.stack = s.stack)
    (hl : s'.limited = s.limited) (hrem : s'.remaining = s.remaining) : Consumed s [] s' where
  r := hr.symm
  stack := by simp [hst]
  limited := hl
  remaining := by split_ifs <;> simp [hrem]

/-- A read of `bytes`, charged by `willRead`. -/
theorem consumed_charge {s s' : Stream} {bytes : List UInt8} (hr : s.r = bytes ++ s'.r)
    (hst : s'.stack = (s.charge bytes.length).stack) (hl : s'.limited = s.limited)
    (hrem : s'.remaining = (s.charge bytes.length).remaining) : Consumed s bytes s' where
  r := hr
  stack := by simp [hst]
  limited := hl
  remaining := hrem

/-! ## The value operations -/

theorem Kind_sound {s s2 : Stream} {k : Kind} {n : Nat} (hk : s.kind = none)
    (h : s.Kind = ((k, n, none), s2)) :
    Consumed s (kindHeader k n s2.byteval) s2 ∧ s2.kind = some k ∧ s2.size = n ∧
      s2.kinderr = none ∧ (k = .byte → n = 0 ∧ s2.byteval < 0x80) := by
  by_cases at_end : ∃ tos outer, s.stack = tos :: outer ∧ tos.pos = tos.size
  · obtain ⟨tos, outer, hst, at_end⟩ := at_end
    rw [Kind_eol hk hst at_end] at h
    simp at h
  have open_list : ∀ tos outer, s.stack = tos :: outer → tos.pos ≠ tos.size :=
    fun tos outer hst at_end' => at_end ⟨tos, outer, hst, at_end'⟩
  rw [Kind_armed hk open_list, readKindChecked_eq_ok_iff] at h
  obtain ⟨s1, hr, -, rfl⟩ := h
  obtain ⟨-, hr', hs1, byte⟩ := readKind_sound hr
  refine ⟨consumed_charge hr' ?_ ?_ ?_, rfl, rfl, rfl, byte⟩ <;> rw [hs1] <;> rfl

theorem Kind_complete {s s1 : Stream} {k : Kind} {n hlen : Nat} (hk : s.kind = none)
    (h : ({ s with kinderr := none } : Stream).readKind = ((k, n, none), s1))
    (c : Consumed s (kindHeader k n s1.byteval) s1) (len : (kindHeader k n s1.byteval).length = hlen)
    (room : s.Room (hlen + n)) :
    ∃ s2, s.Kind = ((k, n, none), s2) ∧ Consumed s (kindHeader k n s1.byteval) s2 ∧
      s2.kind = some k ∧ s2.size = n ∧ s2.kinderr = none ∧ s2.byteval = s1.byteval := by
  have open_list : ∀ tos outer, s.stack = tos :: outer → tos.pos ≠ tos.size := by
    intro tos outer hst
    have := room.list tos outer hst
    have : 0 < hlen := by rw [← len]; cases k <;> simp [kindHeader, length_header_pos]
    omega
  refine ⟨{ s1 with kind := some k, size := n, kinderr := none }, ?_,
    ⟨c.r, c.stack, c.limited, c.remaining⟩, rfl, rfl, rfl, rfl⟩
  rw [Kind_armed hk open_list, readKindChecked_eq_ok_iff]
  exact ⟨s1, h, sizeErr_of_room (c.room (by rwa [len])), rfl⟩

/-- What `Kind` returns without an error stays cached until something
re-arms it. -/
theorem Kind_caches {s s2 : Stream} {k : Kind} {n : Nat} (h : s.Kind = ((k, n, none), s2)) :
    s2.kind = some k ∧ s2.size = n ∧ s2.kinderr = none := by
  cases hk : s.kind with
  | none =>
    obtain ⟨-, hk2, hn, he, -⟩ := Kind_sound hk h
    exact ⟨hk2, hn, he⟩
  | some k' =>
    rw [Kind_cached hk] at h
    simp only [Prod.mk.injEq] at h
    obtain ⟨⟨rfl, rfl, he⟩, rfl⟩ := h
    exact ⟨hk, rfl, he⟩

/-- `Kind` on a byte below `0x80`: the byte is its own value. -/
theorem Kind_single {s : Stream} {x : UInt8} {rest : List UInt8} (hk : s.kind = none)
    (small : x < 0x80) (hr : s.r = x :: rest) (room : s.Room 1) :
    ∃ s2, s.Kind = ((.byte, 0, none), s2) ∧ Consumed s [x] s2 ∧ s2.kind = some .byte ∧
      s2.kinderr = none ∧ s2.byteval = x := by
  have read := readKind_byte (s := { s with kinderr := none }) small hr ⟨room.list, room.limit⟩
  obtain ⟨s2, kind, header, hk2, -, he2, byteval⟩ :=
    Kind_complete hk read (consumed_charge hr rfl rfl rfl) rfl room
  exact ⟨s2, kind, header, hk2, he2, byteval⟩

/-- `Kind` on the header of a string, with room for its payload. -/
theorem Kind_string {s : Stream} {b rest : List UInt8} (hk : s.kind = none) (bound : b.length < 2 ^ 64)
    (hr : s.r = header 0x80 0xB7 b.length ++ b ++ rest)
    (room : s.Room ((header 0x80 0xB7 b.length).length + b.length)) :
    ∃ s2, s.Kind = ((.string, b.length, none), s2) ∧ Consumed s (header 0x80 0xB7 b.length) s2 ∧
      s2.kind = some .string ∧ s2.size = b.length ∧ s2.kinderr = none ∧ s2.r = b ++ rest ∧
      s2.Room b.length := by
  have hr' := hr.trans (List.append_assoc _ _ _)
  have read := readKind_string (s := { s with kinderr := none }) bound hr'
    ⟨(room.mono (Nat.le_add_right _ _)).list, (room.mono (Nat.le_add_right _ _)).limit⟩
  obtain ⟨s2, kind, header, hk2, hsize, he2, -⟩ :=
    Kind_complete hk read (consumed_charge hr' rfl rfl rfl) rfl room
  have hr2 : s2.r = b ++ rest := List.append_cancel_left (header.r.symm.trans hr')
  exact ⟨s2, kind, header, hk2, hsize, he2, hr2, header.room room⟩

theorem Bytes_cached {s s' : Stream} {k : Kind} {b : List UInt8} (hk : s.kind = some k)
    (he : s.kinderr = none) (h : s.Bytes = (.ok b, s')) :
    (k = .byte ∧ b = [s.byteval] ∧ s' = { s with kind := none }) ∨
      (k = .string ∧ ¬(s.size = 1 ∧ b.head?.getD 0 < 128) ∧ s.Room s.size ∧ b.length = s.size ∧
        s.r = b ++ s'.r ∧ s' = { s.charge s.size with r := s'.r }) := by
  unfold Stream.Bytes at h
  rw [Kind_cached hk, he] at h
  cases k with
  | byte =>
    simp only [Prod.mk.injEq, Except.ok.injEq] at h
    exact .inl ⟨rfl, h.1.symm, h.2.symm⟩
  | string =>
    simp only at h
    rcases hf : s.readFull s.size with ⟨e | b', s1⟩ <;> rw [hf] at h
    · cases h
    obtain ⟨room, rest, hr, hlen, rfl⟩ := Iff.mp readFull_eq_ok_iff hf
    by_cases canon : s.size = 1 ∧ b'.head?.getD 0 < 128
    · simp [canon] at h
    · simp only [canon, if_false, Prod.mk.injEq, Except.ok.injEq] at h
      obtain ⟨rfl, rfl⟩ := h
      exact .inr ⟨rfl, canon, room, hlen, hr, rfl⟩
  | list => simp at h

theorem Bytes_byte {s : Stream} (hk : s.kind = some .byte) (he : s.kinderr = none) :
    s.Bytes = (.ok [s.byteval], { s with kind := none }) := by
  simp [Stream.Bytes, Kind_cached hk, he]

theorem Bytes_string {s : Stream} {b rest : List UInt8} (hk : s.kind = some .string)
    (he : s.kinderr = none) (hsize : s.size = b.length) (hr : s.r = b ++ rest)
    (room : s.Room b.length) (canon : ¬(b.length = 1 ∧ b.head?.getD 0 < 128)) :
    s.Bytes = (.ok b, { s.charge b.length with r := rest }) := by
  have read := Iff.mpr readFull_eq_ok_iff ⟨room, rest, hr, rfl, rfl⟩
  simp only [Stream.Bytes, Kind_cached hk, he, hsize, read]
  simp [canon]

/-- After `Kind`, `Bytes` reads from the cached header what it would have
read itself. -/
theorem Bytes_of_Kind {s s2 : Stream} {k : Kind} {n : Nat} (hk : s.kind = none)
    (hK : s.Kind = ((k, n, none), s2)) : s2.Bytes = s.Bytes := by
  obtain ⟨-, hk2, hsize, he2, -⟩ := Kind_sound hk hK
  simp only [Stream.Bytes, hK, Kind_cached hk2, he2, hsize]

/-- What `Bytes` reads after a header is the payload of a string item:
with the header, the encoding of that item. -/
theorem Bytes_cached_sound {s s2 s' : Stream} {k : Kind} {n : Nat} {b : List UInt8}
    (header : Consumed s (kindHeader k n s2.byteval) s2) (hk : s2.kind = some k)
    (he : s2.kinderr = none) (hsize : s2.size = n) (small : k = .byte → s2.byteval < 0x80)
    (h : s2.Bytes = (.ok b, s')) : Consumed s (Item.bytes b).encode s' ∧ s'.kind = none := by
  rcases Bytes_cached hk he h with ⟨rfl, rfl, rfl⟩ | ⟨rfl, canon, -, len, hr, hs'⟩
  · -- a byte below 0x80 is its own header
    rw [Item.encode_single (b := [s2.byteval]) (small rfl)]
    exact ⟨header.rearm, rfl⟩
  · have single : ¬IsSingleByte b := by
      intro one
      match b, one with
      | [x], one => exact canon ⟨by simpa using len.symm, by simpa [IsSingleByte] using one⟩
    have payload : Consumed s2 b s' :=
      consumed_charge hr (by rw [hs', len]) (by rw [hs']; rfl) (by rw [hs', len])
    rw [Item.encode_string single, len, hsize]
    exact ⟨header.trans payload, by rw [hs']; rfl⟩

/-- Whatever `Bytes` accepts is the encoding of a string item. -/
theorem Bytes_sound {s s' : Stream} {b : List UInt8} (hk : s.kind = none)
    (h : s.Bytes = (.ok b, s')) : Consumed s (Item.bytes b).encode s' ∧ s'.kind = none := by
  rcases hK : s.Kind with ⟨⟨k, n, _ | e⟩, s2⟩
  · obtain ⟨header, hk2, hsize, he2, byte⟩ := Kind_sound hk hK
    rw [← Bytes_of_Kind hk hK] at h
    exact Bytes_cached_sound header hk2 he2 hsize (fun hb => (byte hb).2) h
  · simp [Stream.Bytes, hK] at h

/-- `Bytes` reads the encoding of a string item back. -/
theorem Bytes_encode {s : Stream} {b rest : List UInt8} (hk : s.kind = none)
    (bound : b.length < 2 ^ 64) (hr : s.r = (Item.bytes b).encode ++ rest)
    (room : s.Room (Item.bytes b).encode.length) :
    ∃ s', s.Bytes = (.ok b, s') ∧ Consumed s (Item.bytes b).encode s' ∧ s'.kind = none := by
  by_cases single : IsSingleByte b
  · -- a byte below 0x80 is its own header
    match b, single with
    | [x], small =>
      rw [Item.encode_single small] at hr room ⊢
      obtain ⟨s2, kind, header, hk2, he2, byteval⟩ := Kind_single hk small hr room
      refine ⟨{ s2 with kind := none }, ?_, header.rearm, rfl⟩
      rw [← Bytes_of_Kind hk kind, Bytes_byte hk2 he2, byteval]
  · rw [Item.encode_string single] at hr room ⊢
    have canon : ¬(b.length = 1 ∧ b.head?.getD 0 < 128) := by
      rintro ⟨len, small⟩
      match b, len, single with
      | [x], _, single => exact single (by simpa [IsSingleByte] using small)
    rw [List.length_append] at room
    obtain ⟨s2, kind, header, hk2, hsize, he2, hr2, room2⟩ := Kind_string hk bound hr room
    have payload : Consumed s2 b { s2.charge b.length with r := rest } :=
      consumed_charge hr2 rfl rfl rfl
    refine ⟨_, ?_, header.trans payload, rfl⟩
    rw [← Bytes_of_Kind hk kind, Bytes_string hk2 he2 hsize hr2 room2 canon]

theorem List_cached {s : Stream} (hk : s.kind = some .list) (he : s.kinderr = none) :
    s.List = (.ok s.size, { s with stack := ⟨0, s.size⟩ :: s.stack, kind := none, size := 0 }) := by
  simp [Stream.List, Kind_cached hk, he]

theorem ListEnd_eq_none_iff {s s' : Stream} :
    s.ListEnd = (none, s') ↔ ∃ tos outer, s.stack = tos :: outer ∧ tos.pos = tos.size ∧
      s' = { s with stack := bump outer tos.size, kind := none, size := 0 } := by
  unfold Stream.ListEnd
  cases hst : s.stack with
  | nil => simp
  | cons tos outer =>
    by_cases at_end : tos.pos = tos.size
    · cases outer <;> simp [at_end, bump_nil, bump_cons, eq_comm]
    · simp [at_end]

/-! ## End of list

`EOL` comes from `Kind` alone, at the end of the innermost list: no read
reports it. -/

theorem takeRemaining_ne_eol (s : Stream) (n : Nat) : (s.takeRemaining n).1 ≠ some .eol := by
  unfold takeRemaining
  split_ifs <;> simp

theorem willRead_ne_eol (s : Stream) (n : Nat) : (s.willRead n).1 ≠ some .eol := by
  unfold willRead
  dsimp only
  split
  · exact takeRemaining_ne_eol _ n
  · split_ifs
    · simp
    · exact takeRemaining_ne_eol _ n

theorem readByte_ne_eol (s : Stream) : (s.readByte).1 ≠ .error .eol := by
  have := willRead_ne_eol s 1
  unfold readByte
  rcases hw : s.willRead 1 with ⟨_ | e, s1⟩
  · simp only
    split <;> simp
  · rw [hw] at this
    simpa using this

theorem readFull_ne_eol (s : Stream) (n : Nat) : (s.readFull n).1 ≠ .error .eol := by
  have := willRead_ne_eol s n
  unfold readFull
  rcases hw : s.willRead n with ⟨_ | e, s1⟩
  · simp only
    split_ifs <;> simp
  · rw [hw] at this
    simpa using this

theorem readUint_ne_eol (s : Stream) (size : Nat) : (s.readUint size).1 ≠ .error .eol := by
  unfold readUint
  split
  · simp
  · have := readByte_ne_eol s
    rcases hb : s.readByte with ⟨e | b, s1⟩ <;> rw [hb] at this
    · simpa using this
    · simp
  · rename_i size
    have := readFull_ne_eol s (size + 2)
    rcases hf : s.readFull (size + 2) with ⟨e | buf, s1⟩ <;> rw [hf] at this
    · simpa using this
    · simp only
      split_ifs <;> simp

theorem canonSize_ne_eol (size : Nat) : canonSize size ≠ some .eol := by
  unfold canonSize
  split_ifs <;> simp

theorem readKind_ne_eol (s : Stream) : (s.readKind).1.2.2 ≠ some .eol := by
  have byte := readByte_ne_eol s
  unfold readKind
  rcases hb : s.readByte with ⟨e | b, s1⟩ <;> rw [hb] at byte
  · simp only at byte ⊢
    split <;> simp_all
  · -- only a long header can fail, in its size read or its canonicity check
    have size : ∀ len, (({ s1 with byteval := 0 } : Stream).readUint len).1 ≠ .error .eol :=
      readUint_ne_eol _
    simp only
    split_ifs
    · simp
    · simp
    · split
      · rename_i hu
        simpa [hu] using size (b - 0xB7).toNat
      · exact canonSize_ne_eol _
    · simp
    · split
      · rename_i hu
        simpa [hu] using size (b - 0xF7).toNat
      · exact canonSize_ne_eol _

theorem sizeErr_ne_eol (s : Stream) (size : Nat) : s.sizeErr size ≠ some .eol := by
  unfold sizeErr
  split <;> split_ifs <;> simp

theorem readKindChecked_ne_eol (s : Stream) : (s.readKindChecked).1.2.2 ≠ some .eol := by
  unfold readKindChecked
  have := readKind_ne_eol s
  rcases hr : s.readKind with ⟨⟨k, n, _ | e⟩, s1⟩ <;> rw [hr] at this
  · simpa using sizeErr_ne_eol s1 n
  · simpa using this

/-- `Kind` reports `EOL` only at the end of the innermost list, and then it
has read nothing. -/
theorem Kind_eq_eol {s s2 : Stream} {k : Kind} {n : Nat} (hk : s.kind = none)
    (h : s.Kind = ((k, n, some .eol), s2)) : Consumed s [] s2 ∧ s2.kind = none := by
  by_cases at_end : ∃ tos outer, s.stack = tos :: outer ∧ tos.pos = tos.size
  · obtain ⟨tos, outer, hst, at_end⟩ := at_end
    rw [Kind_eol hk hst at_end] at h
    simp only [Prod.mk.injEq] at h
    obtain ⟨-, rfl⟩ := h
    exact ⟨consumed_nil rfl rfl rfl rfl, hk⟩
  · have open_list : ∀ tos outer, s.stack = tos :: outer → tos.pos ≠ tos.size :=
      fun tos outer hst at_end' => at_end ⟨tos, outer, hst, at_end'⟩
    have := readKindChecked_ne_eol ({ s with kinderr := none } : Stream)
    rw [← Kind_armed hk open_list, h] at this
    simp at this

/-- Leaving a list whose payload has been read completely: the payload is
charged to the enclosing list, as if it had been read there. -/
theorem ListEnd_consumed {s t t' : Stream} {payload : List UInt8}
    (push : t.stack = ⟨0, payload.length⟩ :: s.stack) (hr : t.r = s.r)
    (hl : t.limited = s.limited) (hrem : t.remaining = s.remaining) (inner : Consumed t payload t') :
    ∃ s', t'.ListEnd = (none, s') ∧ Consumed s payload s' ∧ s'.kind = none := by
  have hst : t'.stack = ⟨payload.length, payload.length⟩ :: s.stack := by
    rw [inner.stack, push, bump_cons, Nat.zero_add]
  refine ⟨_, Iff.mpr ListEnd_eq_none_iff ⟨_, _, hst, rfl, rfl⟩, ?_, rfl⟩
  exact ⟨by rw [← hr, inner.r], rfl, by rw [inner.limited, hl], by rw [inner.remaining, hl, hrem]⟩

/-- Leaving a list that was read without an error: the frame was full, so
the payload read in it has the size of the list. -/
theorem ListEnd_sound {s t t' s' : Stream} {payload : List UInt8} {n : Nat}
    (push : t.stack = ⟨0, n⟩ :: s.stack) (hr : t.r = s.r) (hl : t.limited = s.limited)
    (hrem : t.remaining = s.remaining) (inner : Consumed t payload t')
    (h : t'.ListEnd = (none, s')) :
    payload.length = n ∧ Consumed s payload s' ∧ s'.kind = none := by
  obtain ⟨tos, outer, hst, at_end, rfl⟩ := Iff.mp ListEnd_eq_none_iff h
  rw [inner.stack, push, bump_cons, List.cons.injEq] at hst
  obtain ⟨rfl, rfl⟩ := hst
  simp only [Nat.zero_add] at at_end
  subst at_end
  exact ⟨rfl, ⟨by rw [← hr, inner.r], rfl, by rw [inner.limited, hl],
    by rw [inner.remaining, hl, hrem]⟩, rfl⟩

theorem ListEnd_ne_eol (s : Stream) : (s.ListEnd).1 ≠ some .eol := by
  unfold Stream.ListEnd
  split
  · simp
  · split_ifs <;> simp

/-- After `Kind` has read a string header, `Bytes` fails only in its read or
its canonicity check. -/
theorem Bytes_ne_eol {s : Stream} {k : Kind} (hk : s.kind = some k) (he : s.kinderr = none) :
    (s.Bytes).1 ≠ .error .eol := by
  unfold Stream.Bytes
  rw [Kind_cached hk, he]
  cases k with
  | byte => simp
  | string =>
    have := readFull_ne_eol s s.size
    simp only
    rcases hf : s.readFull s.size with ⟨e | b, s1⟩ <;> rw [hf] at this
    · simpa using this
    · simp only
      split_ifs <;> simp
  | list => simp

end Stream

end FiscoBcos.Rlp
