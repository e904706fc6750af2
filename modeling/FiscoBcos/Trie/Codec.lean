import FiscoBcos.Trie.Node
import Mathlib

/-!
# Decoding a node's encoding

`decodeNode` reads back the encoding of every collapsed node of the shape the
hasher writes (`Node.Collapsed`), as the node `expandNode` makes of it
(`decodeNode_encode`): a short node whose key has the terminator holds a value,
any other short node and slots 0 to 15 of a full node hold a 32-byte hash or a
node embedded in fewer than 32 bytes, and slot 16 of a full node holds nothing
or a value that is not empty (`decodeFull` reads an empty value as no value).

Encodings are shorter than 2^64 bytes, the limit of RLP's size fields.
-/

namespace FiscoBcos.Trie

open Rlp (Item)

/-- The item of a child in the encoding of a full node: `nilValueNode`, the
empty string, for no child. -/
def childItem (x : Node (List UInt8)) : Item := if x.isNil then .bytes [] else x.toItem

theorem toItem_full (cs : Fin 17 → Node (List UInt8)) :
    (Node.full cs).toItem = .list (List.ofFn fun i => childItem (cs i)) := rfl

namespace Node

/-- The collapsed nodes `decodeNode` reads back. -/
def Collapsed : Node (List UInt8) → Prop
  | .nil => False
  | .value _ => False
  | .hash _ => False
  | .short k v =>
    if hasTerm (compactToHex k) then ∃ w, v = .value w
    else (∃ h, v = .hash h ∧ h.length = 32) ∨ (v.encode.length < 32 ∧ Collapsed v)
  | .full cs =>
    (∀ i, i ≠ 16 → cs i = .nil ∨ (∃ h, cs i = .hash h ∧ h.length = 32) ∨
      ((cs i).encode.length < 32 ∧ Collapsed (cs i))) ∧
    (cs 16 = .nil ∨ ∃ w, w ≠ [] ∧ cs 16 = .value w)

end Node

/-! ## Lengths of nested encodings -/

theorem length_encode_le_encodeList {x : Item} {items : List Item} (mem : x ∈ items) :
    x.encode.length ≤ (Item.encodeList items).length := by
  induction items with
  | nil => simp at mem
  | cons y items ih =>
    rw [Item.encodeList_cons, List.length_append]
    rcases List.mem_cons.mp mem with rfl | mem
    · omega
    · have := ih mem
      omega

/-- The items of a list are shorter than its encoding. -/
theorem length_encode_lt_of_mem {x : Item} {items : List Item} (mem : x ∈ items) :
    x.encode.length < (Item.list items).encode.length := by
  have := length_encode_le_encodeList mem
  have := Rlp.length_header_pos 0xC0 0xF7 (Item.encodeList items).length
  rw [Item.encode_list, List.length_append]
  omega

theorem length_encodeList_lt (items : List Item) :
    (Item.encodeList items).length < (Item.list items).encode.length := by
  have := Rlp.length_header_pos 0xC0 0xF7 (Item.encodeList items).length
  rw [Item.encode_list, List.length_append]
  omega

/-! ## Child references -/

section Refs

variable (decode : List UInt8 → Except DecodeError (Node (List Nibble)))

theorem rawKind_bytes_of_length {b : List UInt8} (h : b.length ≠ 1) :
    (Item.bytes b).rawKind = .string := by
  have : ¬Rlp.IsSingleByte b := by
    unfold Rlp.IsSingleByte
    split <;> simp_all
  simp [Item.rawKind, this]

/-- A 32-byte string is a hash reference. -/
theorem decodeRefWith_hash {h : List UInt8} (len : h.length = 32) (rest : List UInt8) :
    decodeRefWith decode ((Item.bytes h).encode ++ rest) = .ok (.hash h, rest) := by
  have split := Rlp.split_encode (.bytes h) rest (by simp [Rlp.Item.payload, len])
  rw [rawKind_bytes_of_length (by omega)] at split
  simp [decodeRefWith, split, Rlp.Item.payload, len]

/-- The empty string is no child. -/
theorem decodeRefWith_nil (rest : List UInt8) :
    decodeRefWith decode ((Item.bytes []).encode ++ rest) = .ok (.nil, rest) := by
  have split := Rlp.split_encode (.bytes []) rest (by simp [Rlp.Item.payload])
  rw [rawKind_bytes_of_length (by simp)] at split
  simp [decodeRefWith, split, Rlp.Item.payload]

/-- A node embedded in no more than a hash's bytes is decoded in place. -/
theorem decodeRefWith_embedded {items : List Item} (rest : List UInt8)
    (small : (Item.list items).encode.length ≤ hashLen) {n : Node (List Nibble)}
    (dec : decode ((Item.list items).encode ++ rest) = .ok n) :
    decodeRefWith decode ((Item.list items).encode ++ rest) = .ok (n, rest) := by
  have split := Rlp.split_encode (.list items) rest (by
    have := Rlp.Item.length_payload_le (.list items)
    simp only [hashLen] at small
    omega)
  have size : ((Item.list items).encode ++ rest).length - rest.length ≤ hashLen := by
    simp only [List.length_append]
    omega
  simp [decodeRefWith, split, Rlp.Item.rawKind, dec, small]

/-- The loop of `decodeFull` over child references, each of which reads
back. -/
theorem decodeRefsWith_encodeList (xs : List (Node (List UInt8)))
    (refs : ∀ x ∈ xs, ∀ rest, decodeRefWith decode ((childItem x).encode ++ rest) =
      .ok (expandNode x, rest)) :
    ∀ (is : List Nat), is.length = xs.length → ∀ rest,
      decodeRefsWith decode is (Item.encodeList (xs.map childItem) ++ rest) =
        .ok (xs.map expandNode, rest) := by
  induction xs with
  | nil =>
    intro is len rest
    rw [List.length_nil, List.length_eq_zero_iff] at len
    subst len
    rfl
  | cons x xs ih =>
    intro is len rest
    obtain ⟨i, is, rfl⟩ := List.exists_cons_of_length_pos (by rw [len]; simp)
    have tail := ih (fun y hy => refs y (List.mem_cons_of_mem x hy)) is (by simpa using len)
    simp only [List.map_cons, Item.encodeList_cons, List.append_assoc, decodeRefsWith,
      refs x List.mem_cons_self, tail, Except.map_ok_eq]

end Refs

/-! ## decodeNode -/

/-- The list header of an encoding read back: `decodeNode` goes on by the
number of items of the payload. -/
theorem decodeNodeFuel_list {items : List Item} (rest : List UInt8)
    (bound : (Item.list items).encode.length < 2 ^ 64) (f : Nat) :
    decodeNodeFuel (f + 1) ((Item.list items).encode ++ rest) =
      match items.length with
      | 2 => (decodeShortWith (decodeNodeFuel f) (Item.encodeList items)).mapError (wrapError "short")
      | 17 => (decodeFullWith (decodeNodeFuel f) (Item.encodeList items)).mapError (wrapError "full")
      | c => .error (.invalidCount c) := by
  have payload := length_encodeList_lt items
  have nonempty : (Item.list items).encode ++ rest ≠ [] := by
    have := List.ne_nil_of_length_pos (Item.length_encode_pos (.list items))
    simp [this]
  have split := @Rlp.splitList_encode items rest (by omega)
  have count := Rlp.countValues_encodeList items (by omega)
  rw [decodeNodeFuel, if_neg nonempty]
  simp only [split, count]
  rfl

/-- A short node's encoding read back. -/
theorem decodeShortWith_encode (decode : List UInt8 → Except DecodeError (Node (List Nibble)))
    {k : List UInt8} {v : Node (List UInt8)} (bound : (Item.encodeList [.bytes k, v.toItem]).length < 2 ^ 64)
    (hv : hasTerm (compactToHex k) = false →
      decodeRefWith decode v.toItem.encode = .ok (expandNode v, []))
    (leaf : hasTerm (compactToHex k) = true → ∃ w, v = .value w) :
    decodeShortWith decode (Item.encodeList [.bytes k, v.toItem]) = .ok (expandNode (.short k v)) := by
  have lenK : (Item.bytes k).encode.length < 2 ^ 64 := by
    simp only [Item.encodeList_cons, Item.encodeList_nil, List.append_nil, List.length_append] at bound
    omega
  have boundK : k.length < 2 ^ 64 := by
    have := Rlp.Item.length_payload_le (.bytes k)
    simp only [Rlp.Item.payload] at this
    omega
  simp only [Item.encodeList_cons, Item.encodeList_nil, decodeShortWith,
    Rlp.splitString_encode _ boundK]
  cases term : hasTerm (compactToHex k)
  · simp [hv term, expandNode]
  · obtain ⟨w, rfl⟩ := leaf term
    have boundW : w.length < 2 ^ 64 := by
      have := Rlp.Item.length_payload_le (.bytes w)
      simp only [Item.encodeList_cons, Item.encodeList_nil, List.length_append, Rlp.Item.payload,
        Node.toItem] at bound this
      omega
    have := Rlp.splitString_encode [] boundW
    simp only [List.append_nil] at this
    simp [Node.toItem, this, expandNode]

theorem encodeList_append (xs ys : List Item) :
    Item.encodeList (xs ++ ys) = Item.encodeList xs ++ Item.encodeList ys := by
  induction xs with
  | nil => rfl
  | cons x xs ih => simp [ih]

/-- Child `i` of a full node among the first sixteen. -/
theorem getD_map_ofFn_castSucc (cs : Fin 17 → Node (List UInt8)) {i : Fin 17} (h : i.val < 16) :
    ((List.ofFn fun j : Fin 16 => cs j.castSucc).map expandNode).getD i.val .nil = expandNode (cs i) := by
  rw [List.getD_eq_getElem _ _ (by simpa using h), List.getElem_map, List.getElem_ofFn]
  rfl

/-- A full node's encoding read back: sixteen references, then slot 16. -/
theorem decodeFullWith_encode (decode : List UInt8 → Except DecodeError (Node (List Nibble)))
    {cs : Fin 17 → Node (List UInt8)}
    (refs : ∀ i : Fin 17, i ≠ 16 → ∀ rest,
      decodeRefWith decode ((childItem (cs i)).encode ++ rest) = .ok (expandNode (cs i), rest))
    (slot : cs 16 = .nil ∨ ∃ w, w ≠ [] ∧ cs 16 = .value w)
    (bound : (cs 16).encode.length < 2 ^ 64) :
    decodeFullWith decode (Item.encodeList (List.ofFn fun i => childItem (cs i))) =
      .ok (expandNode (.full cs)) := by
  -- the first sixteen children, then slot 16
  set xs := List.ofFn fun i : Fin 16 => cs i.castSucc with hxs
  have items : (List.ofFn fun i => childItem (cs i)) = xs.map childItem ++ [childItem (cs 16)] := by
    rw [List.ofFn_succ', List.concat_eq_append, hxs, List.map_ofFn]
    rfl
  have refsXs : ∀ x ∈ xs, ∀ rest, decodeRefWith decode ((childItem x).encode ++ rest) =
      .ok (expandNode x, rest) := by
    intro x hx rest
    obtain ⟨i, rfl⟩ := List.mem_ofFn.mp hx
    exact refs i.castSucc (Fin.castSucc_lt_last i).ne rest
  have loop := decodeRefsWith_encodeList decode xs refsXs (List.range 16) (by simp [hxs])
    (childItem (cs 16)).encode
  rw [items, encodeList_append, Item.encodeList_cons, Item.encodeList_nil, List.append_nil]
  simp only [decodeFullWith, loop]
  have last : (16 : Fin 17) = Fin.last 16 := rfl
  rcases slot with e | ⟨w, ne, e⟩
  · have read := Rlp.splitString_encode [] (b := []) (by simp)
    simp only [childItem, e, Node.isNil_nil, if_true, List.append_nil] at read ⊢
    simp only [read]
    rw [expandNode]
    refine congrArg Except.ok (congrArg Node.full (funext fun i => ?_))
    by_cases h : i.val < 16
    · rw [if_pos h, hxs, getD_map_ofFn_castSucc cs h]
    · have : i = 16 := by ext; simp; omega
      subst this
      simp [e, expandNode]
  · have boundW : w.length < 2 ^ 64 := by
      rw [e] at bound
      have := Rlp.Item.length_payload_le (.bytes w)
      simp only [Rlp.Item.payload] at this
      exact lt_of_le_of_lt this bound
    have read := Rlp.splitString_encode [] boundW
    simp only [childItem, e, Node.isNil_value, Bool.false_eq_true, if_false, Node.toItem,
      List.append_nil] at read ⊢
    simp only [read]
    rw [expandNode]
    refine congrArg Except.ok (congrArg Node.full (funext fun i => ?_))
    by_cases h : i.val < 16
    · rw [if_pos h, hxs, getD_map_ofFn_castSucc cs h]
    · have : i = 16 := by ext; simp; omega
      subst this
      have pos : 0 < w.length := List.length_pos_of_ne_nil ne
      simp [e, expandNode, pos]

/-- `decodeNode`, with room enough, reads back the encoding of a collapsed
node, whatever follows it. The induction is on the node; an embedded child
is decoded with one unit of room less than its parent. -/
theorem decodeNodeFuel_encode (c : Node (List UInt8)) : c.Collapsed → ∀ fuel rest,
    c.encode.length ≤ fuel → c.encode.length < 2 ^ 64 →
      decodeNodeFuel fuel (c.encode ++ rest) = .ok (expandNode c) := by
  induction c with
  | nil => intro h; exact absurd h id
  | value _ => intro h; exact absurd h id
  | hash _ => intro h; exact absurd h id
  | short k v ih =>
    intro hc fuel rest room bound
    have enc : (Node.short k v).encode = (Item.list [.bytes k, v.toItem]).encode := rfl
    rw [enc] at room bound ⊢
    obtain ⟨f, rfl⟩ : ∃ f, fuel = f + 1 :=
      ⟨fuel - 1, by have := Item.length_encode_pos (.list [.bytes k, v.toItem]); omega⟩
    have payload := length_encodeList_lt [.bytes k, v.toItem]
    have inner := @length_encode_lt_of_mem v.toItem [.bytes k, v.toItem] (by simp)
    rw [decodeNodeFuel_list rest bound f]
    change (decodeShortWith (decodeNodeFuel f) _).mapError (wrapError "short") = _
    refine congrArg _ (decodeShortWith_encode (decodeNodeFuel f) (k := k) (v := v) (by omega)
      (fun term => ?_) (fun term => ?_))
    · -- a key without the terminator: a reference to the child
      simp only [Node.Collapsed, term, Bool.false_eq_true, if_false] at hc
      rcases hc with ⟨h, rfl, len⟩ | ⟨small, hv⟩
      · simpa [Node.toItem, expandNode] using decodeRefWith_hash (decodeNodeFuel f) len []
      · obtain ⟨items, hitems⟩ : ∃ items, v.toItem = .list items := by
          cases v <;> simp_all [Node.Collapsed, Node.toItem]
        have dec := ih hv f [] (by unfold Node.encode; omega) (by unfold Node.encode; omega)
        unfold Node.encode at dec small
        rw [hitems] at dec small ⊢
        simpa using decodeRefWith_embedded (decodeNodeFuel f) [] (by simp only [hashLen]; omega) dec
    · simpa [Node.Collapsed, term] using hc
  | full cs ih =>
    intro hc fuel rest room bound
    rw [Node.encode, toItem_full] at room bound ⊢
    obtain ⟨f, rfl⟩ : ∃ f, fuel = f + 1 :=
      ⟨fuel - 1, by have := Item.length_encode_pos (.list (List.ofFn fun i => childItem (cs i))); omega⟩
    have inner : ∀ i, (childItem (cs i)).encode.length <
        (Item.list (List.ofFn fun i => childItem (cs i))).encode.length := fun i =>
      length_encode_lt_of_mem (List.mem_ofFn.mpr ⟨i, rfl⟩)
    rw [decodeNodeFuel_list rest bound f]
    simp only [List.length_ofFn]
    refine congrArg _ (decodeFullWith_encode (decodeNodeFuel f) (fun i hi rest' => ?_) hc.2 ?_)
    · -- a child reference: nothing, a hash, or an embedded node
      rcases hc.1 i hi with e | ⟨h, e, len⟩ | ⟨small, hci⟩
      · simpa [childItem, e, expandNode] using decodeRefWith_nil (decodeNodeFuel f) rest'
      · simpa [childItem, e, Node.toItem, expandNode] using decodeRefWith_hash (decodeNodeFuel f) len rest'
      · obtain ⟨items, hitems⟩ : ∃ items, (cs i).toItem = .list items := by
          cases h : cs i <;> simp_all [Node.Collapsed, Node.toItem]
        have notNil : (cs i).isNil = false := by
          cases h : cs i <;> simp_all [Node.Collapsed]
        have shorter : (cs i).encode.length <
            (Item.list (List.ofFn fun i => childItem (cs i))).encode.length := by
          have := inner i
          simp only [childItem, notNil, Bool.false_eq_true, if_false] at this
          exact this
        have room' : (cs i).encode.length ≤ f := by omega
        have bound' : (cs i).encode.length < 2 ^ 64 := by omega
        have dec := ih i hci f rest' room' bound'
        unfold Node.encode at dec small
        simp only [childItem, notNil, Bool.false_eq_true, if_false]
        rw [hitems] at dec small ⊢
        exact decodeRefWith_embedded (decodeNodeFuel f) rest' (by simp only [hashLen]; omega) dec
    · -- slot 16: nothing, or a value inside the encoding
      rcases hc.2 with e | ⟨w, _, e⟩
      · rw [e]
        decide
      · have slot : (childItem (cs 16)).encode = (cs 16).encode := by
          rw [childItem, e]
          rfl
        have := inner 16
        rw [slot] at this
        omega

/-- `decodeNode` reads back the encoding of a collapsed node. -/
theorem decodeNode_encode {c : Node (List UInt8)} (hc : c.Collapsed) (bound : c.encode.length < 2 ^ 64) :
    decodeNode c.encode = .ok (expandNode c) := by
  simpa [decodeNode] using decodeNodeFuel_encode c hc c.encode.length [] (by simp) bound

end FiscoBcos.Trie
