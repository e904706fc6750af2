import FiscoBcos.Rlp.Writer
import Mathlib

/-!
# The encoder refines the item encoding

Written into an `encbuf`, an item leaves its string data (`Item.strData`) in
`str` and one list header per list in `lheads` (`Item.heads`), each with the
exact payload size once `listEnd` has run. Splicing the headers back in
(`toBytes`) then yields `Item.encode`. Sizes travel through `uint64`, so the
results hold for items whose encoding is shorter than `2 ^ 64` bytes, which
every Go slice is.
-/

namespace FiscoBcos.Rlp

/-! ## Headers through `uint64` -/

private theorem toNat_toUInt64 {n : Nat} (h : n < 2 ^ 64) : n.toUInt64.toNat = n :=
  UInt64.toNat_ofNat_of_lt' (lt_of_lt_of_eq h (by decide))

private theorem toUInt8_toUInt64 (n : Nat) : n.toUInt64.toUInt8 = n.toUInt8 := by
  rw [← UInt8.toNat_inj, UInt64.toNat_toUInt8, UInt64.toNat_ofNat', UInt8.toNat_ofNat']
  omega

theorem puthead_eq_header (smalltag largetag : UInt8) {n : Nat} (h : n < 2 ^ 64) :
    puthead smalltag largetag n.toUInt64 = header smalltag largetag n := by
  have hn := toNat_toUInt64 h
  unfold puthead header
  by_cases small : n < 56
  · have small' : n.toUInt64 < 56 := by
      rw [UInt64.lt_iff_toNat_lt, hn]
      simpa using small
    rw [if_pos small', if_pos small, toUInt8_toUInt64]
  · have large : ¬ n.toUInt64 < 56 := by
      rw [UInt64.lt_iff_toNat_lt, hn]
      simpa using small
    have nonzero : n.toUInt64 ≠ 0 := by
      intro zero
      have := congrArg UInt64.toNat zero
      simp only [hn, UInt64.toNat_zero] at this
      omega
    rw [if_neg large, if_neg small, putint_eq_bytes nonzero, hn]

theorem Encbuf.encodeStringHeader_eq (w : Encbuf) {n : Nat} (h : n < 2 ^ 64) :
    w.encodeStringHeader n = w.append (header 0x80 0xB7 n) := by
  have spec := puthead_eq_header 0x80 0xB7 h
  unfold puthead at spec
  unfold Encbuf.encodeStringHeader Encbuf.append
  by_cases small : n < 56
  · rw [if_pos small]
    rw [header, if_pos small] at spec ⊢
  · rw [if_neg small]
    have large : ¬ n.toUInt64 < 56 := by
      rw [UInt64.lt_iff_toNat_lt, toNat_toUInt64 h]
      simpa using small
    rw [if_neg large] at spec
    dsimp only at spec ⊢
    rw [spec]

theorem Listhead.encode_eq (head : Listhead) (h : head.size < 2 ^ 64) :
    head.encode = header 0xC0 0xF7 head.size :=
  puthead_eq_header 0xC0 0xF7 h

/-- The header bytes `listEnd` counts into `lhsize`. -/
theorem length_header_list {n : Nat} (h : n < 2 ^ 64) :
    (if n < 56 then 1 else 1 + intsize n.toUInt64) = (header 0xC0 0xF7 n).length := by
  unfold header
  split_ifs with small
  · rfl
  · rw [intsize_eq, toNat_toUInt64 h]
    have : 1 ≤ (BigEndian.bytes n).length := by
      by_contra none
      have := BigEndian.length_bytes_le_iff.mp (show (BigEndian.bytes n).length ≤ 0 by omega)
      omega
    simp only [List.length_cons]
    omega

theorem Encbuf.encodeString_eq (w : Encbuf) {b : List UInt8} (h : b.length < 2 ^ 64) :
    w.encodeString b = w.append ((Item.bytes b).encode) := by
  have single : Encbuf.isSingleByte b = decide (IsSingleByte b) := by
    match b with
    | [] => rfl
    | [b0] => simp [Encbuf.isSingleByte, IsSingleByte, UInt8.le_iff_toNat_le, UInt8.lt_iff_toNat_lt]; omega
    | _ :: _ :: _ => rfl
  unfold Encbuf.encodeString
  rw [single, Item.encode]
  by_cases own : IsSingleByte b
  · simp [own, Encbuf.append]
  · simp only [own, decide_false, if_false, Bool.false_eq_true]
    rw [Encbuf.encodeStringHeader_eq w h]
    simp [Encbuf.append]

/-! ## Splicing the headers back in -/

/-- The string data from position `pos` on, with `heads` spliced in at their
offsets: the output of the loop of `toBytes` from that point. -/
def splice (str : List UInt8) : List Listhead → Nat → List UInt8
  | [], pos => str.drop pos
  | head :: heads, pos =>
    (str.drop pos).take (head.offset - pos) ++ head.encode ++ splice str heads head.offset

private theorem foldl_toBytesStep (str : List UInt8) :
    ∀ (heads : List Listhead) (acc : List UInt8) (pos : Nat),
      (heads.foldl (Encbuf.toBytesStep str) (acc, pos)).1 ++
          str.drop (heads.foldl (Encbuf.toBytesStep str) (acc, pos)).2 =
        acc ++ splice str heads pos
  | [], acc, pos => rfl
  | head :: heads, acc, pos => by
      rw [List.foldl_cons, Encbuf.toBytesStep, foldl_toBytesStep str heads, splice]
      simp only [List.append_assoc]

theorem Encbuf.toBytes_eq_splice (w : Encbuf) : w.toBytes = splice w.str w.lheads 0 := by
  simpa [Encbuf.toBytes] using foldl_toBytesStep w.str w.lheads [] 0

/-- Moving the start forward past string data that no header interrupts. -/
theorem splice_advance (str : List UInt8) (heads : List Listhead) {p q : Nat} (hpq : p ≤ q)
    (after : ∀ head ∈ heads, q ≤ head.offset) :
    splice str heads p = (str.drop p).take (q - p) ++ splice str heads q := by
  have skip : (str.drop p).drop (q - p) = str.drop q := by
    rw [List.drop_drop, Nat.add_sub_cancel' hpq]
  cases heads with
  | nil =>
      simp only [splice]
      rw [← skip, List.take_append_drop]
  | cons head heads =>
      have le : q ≤ head.offset := after head (by simp)
      simp only [splice]
      rw [show head.offset - p = (q - p) + (head.offset - q) by omega, List.take_add, skip]
      simp only [List.append_assoc]

/-- String data read at `offset` in two pieces: the first at `offset`, the
second right after it. -/
theorem take_drop_append {str a b : List UInt8} {offset : Nat}
    (data : (str.drop offset).take (a ++ b).length = a ++ b) :
    (str.drop offset).take a.length = a ∧ (str.drop (offset + a.length)).take b.length = b := by
  have room : a.length + b.length ≤ str.length - offset := by
    have := congrArg List.length data
    simp only [List.length_take, List.length_drop, List.length_append] at this
    omega
  rw [List.length_append, List.take_add] at data
  have pieces := List.append_inj data (by simp; omega)
  rwa [List.drop_drop] at pieces

/-! ## Where an item's bytes go in the buffer -/

mutual
/-- The string data an item leaves in `str`. -/
def Item.strData : Item → List UInt8
  | .bytes b => (Item.bytes b).encode
  | .list items => Item.strDataList items
/-- The string data of the items of a list. -/
def Item.strDataList : List Item → List UInt8
  | [] => []
  | item :: items => item.strData ++ Item.strDataList items
end

mutual
/-- The list headers an item leaves in `lheads` when its string data starts
at `offset`, with their final sizes. -/
def Item.heads : Item → Nat → List Listhead
  | .bytes _, _ => []
  | .list items, offset => ⟨offset, (Item.encodeList items).length⟩ :: Item.headsList items offset
/-- The list headers of the items of a list. -/
def Item.headsList : List Item → Nat → List Listhead
  | [], _ => []
  | item :: items, offset => item.heads offset ++ Item.headsList items (offset + item.strData.length)
end

mutual
/-- The header bytes an item adds to `lhsize`. -/
def Item.hdrSize : Item → Nat
  | .bytes _ => 0
  | .list items => (header 0xC0 0xF7 (Item.encodeList items).length).length + Item.hdrSizeList items
/-- The header bytes of the items of a list. -/
def Item.hdrSizeList : List Item → Nat
  | [] => 0
  | item :: items => item.hdrSize + Item.hdrSizeList items
end

mutual
theorem Item.length_encode : ∀ v : Item, v.encode.length = v.strData.length + v.hdrSize
  | .bytes b => by simp [Item.strData, Item.hdrSize]
  | .list items => by
      have payload := Item.length_encodeList items
      simp only [Item.encode, Item.strData, Item.hdrSize, List.length_append]
      omega
theorem Item.length_encodeList : ∀ items : List Item,
    (Item.encodeList items).length = (Item.strDataList items).length + Item.hdrSizeList items
  | [] => rfl
  | item :: items => by
      have head := Item.length_encode item
      have tail := Item.length_encodeList items
      simp only [Item.encodeList, Item.strDataList, Item.hdrSizeList, List.length_append]
      omega
end

mutual
theorem Item.offset_le_of_mem_heads :
    ∀ (v : Item) (offset : Nat), ∀ head ∈ v.heads offset, offset ≤ head.offset
  | .bytes _, _ => by simp [Item.heads]
  | .list items, offset => by
      intro head mem
      simp only [Item.heads, List.mem_cons] at mem
      rcases mem with rfl | inner
      · exact Nat.le_refl _
      · exact Item.offset_le_of_mem_headsList items offset head inner
theorem Item.offset_le_of_mem_headsList :
    ∀ (items : List Item) (offset : Nat), ∀ head ∈ Item.headsList items offset, offset ≤ head.offset
  | [], _ => by simp [Item.headsList]
  | item :: items, offset => by
      intro head mem
      simp only [Item.headsList, List.mem_append] at mem
      rcases mem with first | rest
      · exact Item.offset_le_of_mem_heads item offset head first
      · have := Item.offset_le_of_mem_headsList items _ head rest
        omega
end

/-! ## Writing an item -/

/-- `listEnd` on the header at index `pre.length`, opened at `offset` when
`lhsize` was `opened`, records the payload written since and counts its
header. -/
theorem Encbuf.listEnd_opened (str : List UInt8) (pre inner : List Listhead)
    (lhsize offset opened : Nat) (h : str.length + lhsize - offset - opened < 2 ^ 64) :
    Encbuf.listEnd ⟨str, pre ++ ⟨offset, opened⟩ :: inner, lhsize⟩ pre.length =
      ⟨str, pre ++ ⟨offset, str.length + lhsize - offset - opened⟩ :: inner,
        lhsize + (header 0xC0 0xF7 (str.length + lhsize - offset - opened)).length⟩ := by
  have at_head : (pre ++ ⟨offset, opened⟩ :: inner)[pre.length]? = some ⟨offset, opened⟩ := by
    simp
  have counted := length_header_list h
  simp only [Encbuf.listEnd, at_head, Encbuf.size, List.set_append_right _ _ (le_refl _),
    Nat.sub_self, List.set_cons_zero]
  rw [← counted]
  by_cases small : str.length + lhsize - offset - opened < 56
  · simp only [small, if_true]
  · simp only [small, if_false, Nat.add_assoc]

private theorem length_bytes_le_encode (b : List UInt8) :
    b.length ≤ (Item.bytes b).encode.length := by
  simp only [Item.encode]
  split_ifs <;> simp

mutual
theorem writeValue_item : ∀ (v : Item) (w : Encbuf), v.encode.length < 2 ^ 64 →
    writeValue v.goType Tags.none v.goValue w =
      .ok ⟨w.str ++ v.strData, w.lheads ++ v.heads w.str.length, w.lhsize + v.hdrSize⟩
  | .bytes b, w, bound => by
      have short : b.length < 2 ^ 64 := Nat.lt_of_le_of_lt (length_bytes_le_encode b) bound
      simp only [Item.goType, Item.goValue, bytesType, writeValue, GoType.isByte, if_true,
        Encbuf.encodeString_eq w short, Encbuf.append, Item.strData, Item.heads, Item.hdrSize,
        List.append_nil, Nat.add_zero]
  | .list items, w, bound => by
      have payload : (Item.encodeList items).length < 2 ^ 64 := by
        have : (Item.encodeList items).length ≤ (Item.list items).encode.length := by
          simp [Item.encode]
        omega
      have elems := writeElems_ifaces items (w.list).1 payload
      have sizes := Item.length_encodeList items
      simp only [Encbuf.list] at elems
      simp only [Item.goType, Item.goValue, ifsliceType, writeValue, Tags.none,
        Bool.false_eq_true, if_false, Encbuf.list, elems, Except.map, List.append_assoc,
        List.singleton_append]
      rw [Encbuf.listEnd_opened _ _ _ _ _ _ (by simp only [List.length_append]; omega)]
      simp only [List.length_append, Item.strData, Item.heads, Item.hdrSize,
        Except.ok.injEq, Encbuf.mk.injEq, true_and]
      constructor
      · congr 3
        omega
      · have : w.str.length + (Item.strDataList items).length + (w.lhsize + Item.hdrSizeList items)
            - w.str.length - w.lhsize = (Item.encodeList items).length := by omega
        rw [this]
        omega
theorem writeElems_ifaces : ∀ (items : List Item) (w : Encbuf),
    (Item.encodeList items).length < 2 ^ 64 →
    writeElems .iface (Item.ifaces items) w =
      .ok ⟨w.str ++ Item.strDataList items, w.lheads ++ Item.headsList items w.str.length,
        w.lhsize + Item.hdrSizeList items⟩
  | [], w, _ => by
      simp [Item.ifaces, writeElems, Item.strDataList, Item.headsList, Item.hdrSizeList]
  | item :: items, w, bound => by
      have lengths : (Item.encodeList (item :: items)).length =
          item.encode.length + (Item.encodeList items).length := by
        simp [Item.encodeList]
      have first : item.encode.length < 2 ^ 64 := by omega
      have rest : (Item.encodeList items).length < 2 ^ 64 := by omega
      simp only [Item.ifaces, writeElems, writeValue, writeValue_item item w first,
        writeElems_ifaces items _ rest]
      simp [Item.strDataList, Item.headsList, Item.hdrSizeList, List.append_assoc, Nat.add_assoc]
end

/-! ## Splicing an item's headers -/

mutual
/-- The headers of an item, spliced into its string data, give its encoding;
splicing then continues after the item. -/
theorem splice_item : ∀ (v : Item) (str : List UInt8) (offset : Nat) (rest : List Listhead),
    v.encode.length < 2 ^ 64 →
    (str.drop offset).take v.strData.length = v.strData →
    (∀ head ∈ rest, offset + v.strData.length ≤ head.offset) →
    splice str (v.heads offset ++ rest) offset =
      v.encode ++ splice str rest (offset + v.strData.length)
  | .bytes b, str, offset, rest, _, data, after => by
      rw [Item.heads, List.nil_append,
        splice_advance str rest (Nat.le_add_right offset _) after, Nat.add_sub_cancel_left, data]
      rfl
  | .list items, str, offset, rest, bound, data, after => by
      have payload : (Item.encodeList items).length < 2 ^ 64 := by
        have : (Item.encodeList items).length ≤ (Item.list items).encode.length := by
          simp [Item.encode]
        omega
      have inner := splice_items items str offset rest payload data after
      simp only [Item.heads, List.cons_append, splice, Nat.sub_self, List.take_zero,
        List.nil_append, Item.strData] at inner ⊢
      rw [inner, Listhead.encode_eq _ payload, Item.encode, List.append_assoc]
/-- The headers of the items of a list, spliced into their string data, give
the list's payload. -/
theorem splice_items : ∀ (items : List Item) (str : List UInt8) (offset : Nat)
    (rest : List Listhead),
    (Item.encodeList items).length < 2 ^ 64 →
    (str.drop offset).take (Item.strDataList items).length = Item.strDataList items →
    (∀ head ∈ rest, offset + (Item.strDataList items).length ≤ head.offset) →
    splice str (Item.headsList items offset ++ rest) offset =
      Item.encodeList items ++ splice str rest (offset + (Item.strDataList items).length)
  | [], str, offset, rest, _, _, _ => by
      simp [Item.headsList, Item.encodeList, Item.strDataList]
  | item :: items, str, offset, rest, bound, data, after => by
      have lengths : (Item.encodeList (item :: items)).length =
          item.encode.length + (Item.encodeList items).length := by
        simp [Item.encodeList]
      obtain ⟨first, second⟩ := take_drop_append (a := item.strData) (b := Item.strDataList items) data
      have later : ∀ head ∈ Item.headsList items (offset + item.strData.length) ++ rest,
          offset + item.strData.length ≤ head.offset := by
        intro head mem
        rcases List.mem_append.mp mem with inner | outer
        · exact Item.offset_le_of_mem_headsList items _ head inner
        · have := after head outer
          simp only [Item.strDataList, List.length_append] at this
          omega
      have restAfter : ∀ head ∈ rest,
          offset + item.strData.length + (Item.strDataList items).length ≤ head.offset := by
        intro head mem
        have := after head mem
        simp only [Item.strDataList, List.length_append] at this
        omega
      rw [Item.headsList, List.append_assoc,
        splice_item item str offset _ (by omega) first later,
        splice_items items str _ rest (by omega) second restAfter]
      simp [Item.encodeList, Item.strDataList, Nat.add_assoc]
end

/-- `EncodeToBytes` of the value standing for an item returns the item's
encoding. -/
theorem encodeToBytes_item (v : Item) (bound : v.encode.length < 2 ^ 64) :
    encodeToBytes v.goType v.goValue = .ok v.encode := by
  have written := writeValue_item v Encbuf.empty bound
  simp only [Encbuf.empty, List.nil_append, List.length_nil, Nat.zero_add] at written
  have spliced := splice_item v v.strData 0 [] bound (by simp) (by simp)
  simp only [List.append_nil, splice, Nat.zero_add, List.drop_length] at spliced
  rw [encodeToBytes, Encbuf.empty, written]
  simp [Except.map, Encbuf.toBytes_eq_splice, spliced]

end FiscoBcos.Rlp
