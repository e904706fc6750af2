import FiscoBcos.Lib.BigEndian
import Mathlib

/-!
# RLP items and their canonical encoding

The abstract layer of the RLP component: an item is a byte string or a list
of items, and `Item.encode` is the recursive-length-prefix encoding of the
Yellow Paper, with the single-byte rule and short and long headers. The
encoder of `rlp/encode.go` refines it (`FiscoBcos.Rlp.encodeToBytes_item`),
and the decoder accepts exactly its image (`FiscoBcos.Rlp.Canonical`).
-/

namespace FiscoBcos.Rlp

/-- An RLP item: a byte string or a list of items. -/
inductive Item where
  | bytes (b : List UInt8)
  | list (items : List Item)
deriving Repr, Inhabited

mutual
/-- Equality of items is decidable. -/
def Item.decEq : (a b : Item) → Decidable (a = b)
  | .bytes x, .bytes y =>
    if h : x = y then isTrue (h ▸ rfl) else isFalse fun e => by cases e; exact h rfl
  | .bytes _, .list _ => isFalse fun e => by cases e
  | .list _, .bytes _ => isFalse fun e => by cases e
  | .list xs, .list ys =>
    match Item.decEqList xs ys with
    | isTrue h => isTrue (h ▸ rfl)
    | isFalse h => isFalse fun e => by cases e; exact h rfl
/-- Equality of item lists is decidable. -/
def Item.decEqList : (a b : List Item) → Decidable (a = b)
  | [], [] => isTrue rfl
  | [], _ :: _ => isFalse fun e => by cases e
  | _ :: _, [] => isFalse fun e => by cases e
  | x :: xs, y :: ys =>
    match Item.decEq x y, Item.decEqList xs ys with
    | isTrue h₁, isTrue h₂ => isTrue (h₁ ▸ h₂ ▸ rfl)
    | isFalse h₁, _ => isFalse fun e => by cases e; exact h₁ rfl
    | _, isFalse h₂ => isFalse fun e => by cases e; exact h₂ rfl
end

instance : DecidableEq Item := Item.decEq

/-- The header of a payload of `n` bytes: `short + n` below 56 bytes, else
`long + k` followed by the `k` big-endian bytes of `n`. -/
def header (short long : UInt8) (n : Nat) : List UInt8 :=
  if n < 56 then [short + n.toUInt8]
  else (long + (BigEndian.bytes n).length.toUInt8) :: BigEndian.bytes n

/-- A byte string that is its own encoding: one byte below `0x80`. -/
def IsSingleByte : List UInt8 → Prop
  | [b] => b < 0x80
  | _ => False

instance : DecidablePred IsSingleByte := fun b =>
  match b with
  | [b] => inferInstanceAs (Decidable (b < 0x80))
  | [] => isFalse id
  | _ :: _ :: _ => isFalse id

mutual
/-- The canonical encoding of an item. -/
def Item.encode : Item → List UInt8
  | .bytes b => if IsSingleByte b then b else header 0x80 0xB7 b.length ++ b
  | .list items => header 0xC0 0xF7 (Item.encodeList items).length ++ Item.encodeList items
/-- The concatenated encodings of a list of items: a list's payload. -/
def Item.encodeList : List Item → List UInt8
  | [] => []
  | item :: items => item.encode ++ Item.encodeList items
end

@[simp] theorem Item.encodeList_nil : Item.encodeList [] = [] := rfl

@[simp] theorem Item.encodeList_cons (item : Item) (items : List Item) :
    Item.encodeList (item :: items) = item.encode ++ Item.encodeList items := rfl

theorem Item.encode_list (items : List Item) :
    (Item.list items).encode =
      header 0xC0 0xF7 (Item.encodeList items).length ++ Item.encodeList items := rfl

theorem Item.encode_single {b : List UInt8} (h : IsSingleByte b) : (Item.bytes b).encode = b := by
  simp [Item.encode, h]

theorem Item.encode_string {b : List UInt8} (h : ¬IsSingleByte b) :
    (Item.bytes b).encode = header 0x80 0xB7 b.length ++ b := by
  simp [Item.encode, h]

theorem length_header_pos (short long : UInt8) (n : Nat) : 0 < (header short long n).length := by
  unfold header
  split_ifs <;> simp

theorem Item.length_encode_pos : ∀ v : Item, 0 < v.encode.length
  | .bytes b => by
    by_cases h : IsSingleByte b
    · match b, h with
      | [_], h => simp [Item.encode_single h]
    · simp [Item.encode_string h, length_header_pos]
  | .list items => by simp [Item.encode_list, length_header_pos]

/-- Every item takes at least one byte. -/
theorem Item.length_le_encodeList : ∀ items : List Item, items.length ≤ (Item.encodeList items).length
  | [] => le_rfl
  | item :: items => by
    have := item.length_encode_pos
    have := Item.length_le_encodeList items
    simp only [List.length_cons, Item.encodeList_cons, List.length_append]
    omega

end FiscoBcos.Rlp
