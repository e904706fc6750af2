import FiscoBcos.Rlp.Decoder
import FiscoBcos.Rlp.StreamSpec
import FiscoBcos.Rlp.ItemWriter
import Mathlib

/-!
# Decoding items into interface values

`decodeInterface` against the item encoding `Item.encode`. It reads every
encoding back as its item, consuming exactly that encoding
(`decodeInterface_item`); and whatever it reads is an item whose encoding is
exactly what it consumed (`decodeInterface_reads`). The list case of either
direction runs the element loop of `decodeSliceElems` inside a list frame
pushed by `List`, which `ListEnd` pops once the frame is full.
-/

namespace FiscoBcos.Rlp

open FiscoBcos.Rlp.Stream

/-! ## Every encoding decodes to its item -/

/-- On a string or a single byte, `decodeInterface` returns what `Bytes` reads. -/
theorem decodeInterface_of_Bytes {d : Nat} {s s' : Stream} {b : List UInt8} (hk : s.kind = none)
    (h : s.Bytes = (.ok b, s')) :
    decodeInterface (d + 1) s = (.ok (.iface (some (bytesType, .bytes b))), s') := by
  rcases hK : s.Kind with ⟨⟨k, n, _ | e⟩, s2⟩
  · have same := Bytes_of_Kind hk hK
    cases k with
    | list => simp [Stream.Bytes, hK] at h
    | byte => simp only [decodeInterface, hK, same, h]
    | string => simp only [decodeInterface, hK, same, h]
  · simp [Stream.Bytes, hK] at h

theorem decodeInterface_bytes {d : Nat} {s : Stream} {b rest : List UInt8} (hk : s.kind = none)
    (hr : s.r = (Item.bytes b).encode ++ rest) (room : s.Room (Item.bytes b).encode.length)
    (bound : b.length < 2 ^ 64) :
    ∃ s', decodeInterface (d + 1) s = (.ok (.iface (some (bytesType, .bytes b))), s') ∧
      Consumed s (Item.bytes b).encode s' ∧ s'.kind = none := by
  obtain ⟨s', bytes, c, hk'⟩ := Bytes_encode hk bound hr room
  exact ⟨s', decodeInterface_of_Bytes hk bytes, c, hk'⟩

mutual
theorem decodeInterface_item : ∀ (v : Item) (d : Nat) (s : Stream) (rest : List UInt8),
    s.kind = none → s.r = v.encode ++ rest → s.Room v.encode.length →
    v.encode.length ≤ d → v.encode.length < 2 ^ 64 →
    ∃ s', decodeInterface d s = (.ok (.iface (some (v.goType, v.goValue))), s') ∧
      Consumed s v.encode s' ∧ s'.kind = none
  | .bytes b, d, s, rest, hk, hr, room, fuel, bound => by
    obtain ⟨d, rfl⟩ : ∃ d', d = d' + 1 :=
      ⟨d - 1, by have := (Item.bytes b).length_encode_pos; omega⟩
    have short : b.length < 2 ^ 64 := by
      by_cases single : IsSingleByte b
      · rw [Item.encode_single single] at bound
        exact bound
      · rw [Item.encode_string single, List.length_append] at bound
        omega
    exact decodeInterface_bytes hk hr room short
  | .list items, d, s, rest, hk, hr, room, fuel, bound => by
    obtain ⟨d, rfl⟩ : ∃ d', d = d' + 1 :=
      ⟨d - 1, by have := (Item.list items).length_encode_pos; omega⟩
    simp only [Item.goType, Item.goValue]
    rw [Item.encode_list] at hr room fuel bound ⊢
    rw [List.length_append] at room fuel bound
    have hr' := hr.trans (List.append_assoc _ _ _)
    have hpos := length_header_pos 0xC0 0xF7 (Item.encodeList items).length
    -- the header, charged to the enclosing list
    have read := readKind_list (s := { s with kinderr := none }) (by omega) hr'
      ⟨(room.mono (Nat.le_add_right _ _)).list, (room.mono (Nat.le_add_right _ _)).limit⟩
    obtain ⟨s2, kind, header, hk2, hsize, he2, -⟩ :=
      Kind_complete hk read (consumed_charge hr' rfl rfl rfl) rfl room
    have hr2 : s2.r = Item.encodeList items ++ rest :=
      List.append_cancel_left (header.r.symm.trans hr')
    have room2 := header.room room
    -- `List` pushes the frame of the payload
    have list := List_cached hk2 he2
    rw [hsize] at list
    generalize hs3 : ({ s2 with
        stack := ⟨0, (Item.encodeList items).length⟩ :: s2.stack, kind := none, size := 0 } : Stream)
      = s3 at list
    have hst3 : s3.stack = ⟨0, (Item.encodeList items).length⟩ :: s2.stack := by rw [← hs3]
    have hr3 : s3.r = s2.r := by rw [← hs3]
    have hl3 : s3.limited = s2.limited := by rw [← hs3]
    have hrem3 : s3.remaining = s2.remaining := by rw [← hs3]
    have hk3 : s3.kind = none := by rw [← hs3]
    cases items with
    | nil =>
      obtain ⟨s4, listEnd, c4, hk4⟩ := ListEnd_consumed hst3 hr3 hl3 hrem3 (consumed_nil rfl rfl rfl rfl)
      refine ⟨s4, ?_, by simpa [kindHeader] using header.trans c4, hk4⟩
      simp only [decodeInterface, kind, decodeListSlice, list, Item.encodeList_nil, List.length_nil,
        listEnd, Item.ifaces]
    | cons item items =>
      have payload := Item.length_le_encodeList (item :: items)
      obtain ⟨m, hm⟩ : ∃ m, (Item.encodeList (item :: items)).length = m + 1 :=
        ⟨_, (Nat.succ_pred_eq_of_pos (by simp at payload ⊢; omega)).symm⟩
      have room3 : s3.Room (Item.encodeList (item :: items)).length := by
        constructor
        · intro tos outer h
          rw [hst3, List.cons.injEq] at h
          rw [← h.1]
          simp
        · intro h
          rw [hrem3]
          exact room2.limit (hl3 ▸ h)
      obtain ⟨s5, elems, c5, -⟩ := decodeSliceElems_items (item :: items) d (s3.r.length + 1) s3
        rest _ s2.stack hk3 hst3 (hr3.trans hr2) room3 (Nat.zero_add _) (by omega) (by omega)
        (by rw [hr3, hr2, List.length_append]; omega) (by omega)
      obtain ⟨s6, listEnd, c6, hk6⟩ := ListEnd_consumed hst3 hr3 hl3 hrem3 c5
      refine ⟨s6, ?_, header.trans c6, hk6⟩
      rw [hm] at list
      simp only [decodeInterface, kind, decodeListSlice, list, elems, listEnd]
theorem decodeSliceElems_items : ∀ (items : List Item) (d rounds : Nat) (s : Stream)
    (rest : List UInt8) (tos : Listpos) (outer : List Listpos),
    s.kind = none → s.stack = tos :: outer → s.r = Item.encodeList items ++ rest →
    s.Room (Item.encodeList items).length → tos.pos + (Item.encodeList items).length = tos.size →
    (Item.encodeList items).length ≤ d → 0 < d → items.length < rounds →
    (Item.encodeList items).length < 2 ^ 64 →
    ∃ s', decodeSliceElems (decodeInterface d) rounds s = (.ok (Item.ifaces items), s') ∧
      Consumed s (Item.encodeList items) s' ∧ s'.kind = none
  | [], d, rounds, s, rest, tos, outer, hk, hst, hr, room, at_end, fuel, pos, enough, bound => by
    obtain ⟨rounds, rfl⟩ : ∃ r, rounds = r + 1 := ⟨rounds - 1, by simp at enough; omega⟩
    obtain ⟨d, rfl⟩ : ∃ d', d = d' + 1 := ⟨d - 1, by omega⟩
    -- the frame is full: `Kind` reports the end of the list
    have eol := Kind_eol hk hst (by simpa using at_end)
    refine ⟨{ s with kinderr := none }, ?_, consumed_nil rfl rfl rfl rfl, hk⟩
    simp [decodeSliceElems, decodeInterface, eol, Item.ifaces]
  | item :: items, d, rounds, s, rest, tos, outer, hk, hst, hr, room, at_end, fuel, pos, enough,
      bound => by
    obtain ⟨rounds, rfl⟩ : ∃ r, rounds = r + 1 := ⟨rounds - 1, by simp at enough; omega⟩
    simp only [Item.encodeList_cons, List.length_append, List.append_assoc] at hr room at_end fuel bound
    obtain ⟨s1, first, c1, hk1⟩ := decodeInterface_item item d s _ hk hr
      (room.mono (Nat.le_add_right _ _)) (by omega) (by omega)
    have hst1 : s1.stack = { tos with pos := tos.pos + item.encode.length } :: outer := by
      rw [c1.stack, hst, bump]
    obtain ⟨s2, later, c2, hk2⟩ := decodeSliceElems_items items d rounds s1 rest _ outer hk1 hst1
      (List.append_cancel_left (c1.r.symm.trans hr)) (c1.room room) (by simp only; omega)
      (by omega) pos (by simp at enough; omega) (by omega)
    refine ⟨s2, ?_, by simpa using c1.trans c2, hk2⟩
    simp only [decodeSliceElems, first, later, Item.ifaces]
end
/-! ## What is decoded was read from its encoding -/

/-- The element loop stops at `EOL` and passes every other error on, so it
never reports `EOL` itself. -/
theorem decodeSliceElems_ne_eol {α : Type} (elemdec : Dec α) :
    ∀ rounds s, (decodeSliceElems elemdec rounds s).1 ≠ .error .eol
  | 0, s => by simp [decodeSliceElems]
  | rounds + 1, s => by
    have later := decodeSliceElems_ne_eol elemdec rounds
    simp only [decodeSliceElems]
    split
    · simp
    · rename_i not_eol _
      simpa using not_eol
    · rename_i s1 _
      have := later s1
      split
      · rename_i heq
        simpa [heq] using this
      · simp

/-- A decoder of one item: what it decodes from a re-armed stream is an item
read from exactly that item's encoding, and at the end of a list it reads
nothing. -/
structure ReadsItem (dec : Dec GoValue) : Prop where
  ok : ∀ s w s', s.kind = none → dec s = (.ok w, s') →
    ∃ v : Item, w = .iface (some (v.goType, v.goValue)) ∧ Consumed s v.encode s' ∧ s'.kind = none
  eol : ∀ s s', s.kind = none → dec s = (.error .eol, s') → Consumed s [] s' ∧ s'.kind = none

theorem decodeSliceElems_sound {elemdec : Dec GoValue} (spec : ReadsItem elemdec) :
    ∀ rounds s vs s', s.kind = none → decodeSliceElems elemdec rounds s = (.ok vs, s') →
      ∃ items, vs = Item.ifaces items ∧ Consumed s (Item.encodeList items) s' ∧ s'.kind = none
  | 0, s, vs, s', _, h => by simp [decodeSliceElems] at h
  | rounds + 1, s, vs, s', hk, h => by
    simp only [decodeSliceElems] at h
    split at h
    · -- the end of the list
      rename_i s1 heq
      obtain ⟨c, hk1⟩ := spec.eol s s1 hk heq
      simp only [Prod.mk.injEq, Except.ok.injEq] at h
      obtain ⟨rfl, rfl⟩ := h
      exact ⟨[], rfl, c, hk1⟩
    · simp at h
    · rename_i w s1 heq
      obtain ⟨item, rfl, c1, hk1⟩ := spec.ok s w s1 hk heq
      split at h
      · simp at h
      · rename_i ws s2 heq2
        simp only [Prod.mk.injEq, Except.ok.injEq] at h
        obtain ⟨rfl, rfl⟩ := h
        obtain ⟨items, rfl, c2, hk2⟩ := decodeSliceElems_sound spec rounds s1 ws s2 hk1 heq2
        exact ⟨item :: items, rfl, by simpa using c1.trans c2, hk2⟩

theorem decodeListSlice_ne_eol {α : Type} (elemdec : Dec α) {s : Stream}
    (hk : s.kind = some .list) (he : s.kinderr = none) :
    (decodeListSlice elemdec s).1 ≠ .error .eol := by
  unfold decodeListSlice
  rw [List_cached hk he]
  split
  · rename_i heq
    simp at heq
  · -- an empty list: only `ListEnd` can fail
    rename_i t _
    have := ListEnd_ne_eol t
    split
    · rename_i heq
      simpa [heq] using this
    · simp
  · rename_i t _ _
    have := decodeSliceElems_ne_eol elemdec (t.r.length + 1) t
    split
    · rename_i heq
      simpa [heq] using this
    · rename_i s3 _
      have := ListEnd_ne_eol s3
      split
      · rename_i heq
        simpa [heq] using this
      · simp

/-- A list decoded without an error: its elements are items whose encodings
fill the list's payload exactly. -/
theorem decodeListSlice_sound {elemdec : Dec GoValue} (spec : ReadsItem elemdec) {s s' : Stream}
    {vs : List GoValue} (hk : s.kind = some .list) (he : s.kinderr = none)
    (h : decodeListSlice elemdec s = (.ok vs, s')) :
    ∃ items, vs = Item.ifaces items ∧ (Item.encodeList items).length = s.size ∧
      Consumed s (Item.encodeList items) s' ∧ s'.kind = none := by
  unfold decodeListSlice at h
  rw [List_cached hk he] at h
  generalize ht : ({ s with stack := ⟨0, s.size⟩ :: s.stack, kind := none, size := 0 } : Stream) = t
    at h
  have push : t.stack = ⟨0, s.size⟩ :: s.stack := by rw [← ht]
  have hr : t.r = s.r := by rw [← ht]
  have hl : t.limited = s.limited := by rw [← ht]
  have hrem : t.remaining = s.remaining := by rw [← ht]
  have hkt : t.kind = none := by rw [← ht]
  split at h
  · rename_i heq
    simp at heq
  · -- an empty list ends at once
    rename_i t' heq
    simp only [Prod.mk.injEq] at heq
    obtain ⟨-, rfl⟩ := heq
    split at h
    · simp at h
    · rename_i s4 heq
      simp only [Prod.mk.injEq, Except.ok.injEq] at h
      obtain ⟨rfl, rfl⟩ := h
      obtain ⟨len, c, hk4⟩ := ListEnd_sound push hr hl hrem (consumed_nil rfl rfl rfl rfl) heq
      exact ⟨[], rfl, len, c, hk4⟩
  · rename_i t' heq
    simp only [Prod.mk.injEq] at heq
    obtain ⟨-, rfl⟩ := heq
    split at h
    · simp at h
    · rename_i ws s4 heq
      obtain ⟨items, rfl, c4, -⟩ := decodeSliceElems_sound spec _ t ws s4 hkt heq
      split at h
      · simp at h
      · rename_i s5 heq5
        simp only [Prod.mk.injEq, Except.ok.injEq] at h
        obtain ⟨rfl, rfl⟩ := h
        obtain ⟨len, c, hk5⟩ := ListEnd_sound push hr hl hrem c4 heq5
        exact ⟨items, rfl, len, c, hk5⟩

/-- `decodeInterface` reads items, at every depth of fuel. -/
theorem decodeInterface_reads : ∀ d, ReadsItem (decodeInterface d)
  | 0 => ⟨fun _ _ _ _ h => by simp [decodeInterface] at h, fun _ _ _ h => by
      simp [decodeInterface] at h⟩
  | d + 1 => by
    constructor
    · intro s w s' hk h
      simp only [decodeInterface] at h
      rcases hK : s.Kind with ⟨⟨k, n, _ | e⟩, s2⟩ <;> rw [hK] at h
      · obtain ⟨c, hk2, hsize, he2, byte⟩ := Kind_sound hk hK
        cases k with
        | list =>
          simp only at h
          split at h
          · simp at h
          · rename_i vs s3 heq
            simp only [Prod.mk.injEq, Except.ok.injEq] at h
            obtain ⟨rfl, rfl⟩ := h
            obtain ⟨items, rfl, len, c3, hk3⟩ :=
              decodeListSlice_sound (decodeInterface_reads d) hk2 he2 heq
            refine ⟨.list items, rfl, ?_, hk3⟩
            rw [Item.encode_list, len, hsize]
            exact c.trans c3
        | byte =>
          simp only at h
          split at h
          · simp at h
          · rename_i b s3 heq
            simp only [Prod.mk.injEq, Except.ok.injEq] at h
            obtain ⟨rfl, rfl⟩ := h
            obtain ⟨c3, hk3⟩ := Bytes_cached_sound c hk2 he2 hsize (fun hb => (byte hb).2) heq
            exact ⟨.bytes b, rfl, c3, hk3⟩
        | string =>
          simp only at h
          split at h
          · simp at h
          · rename_i b s3 heq
            simp only [Prod.mk.injEq, Except.ok.injEq] at h
            obtain ⟨rfl, rfl⟩ := h
            obtain ⟨c3, hk3⟩ := Bytes_cached_sound c hk2 he2 hsize (fun hb => nomatch hb) heq
            exact ⟨.bytes b, rfl, c3, hk3⟩
      · simp at h
    · intro s s' hk h
      simp only [decodeInterface] at h
      rcases hK : s.Kind with ⟨⟨k, n, _ | e⟩, s2⟩ <;> rw [hK] at h
      · -- after a header, neither the list nor the string decoder reports `EOL`
        obtain ⟨-, hk2, -, he2, -⟩ := Kind_sound hk hK
        exfalso
        cases k with
        | list =>
          have := decodeListSlice_ne_eol (decodeInterface d) hk2 he2
          simp only at h
          split at h
          · rename_i heq
            simp only [Prod.mk.injEq, Except.error.injEq] at h
            rw [heq, h.1] at this
            exact this rfl
          · simp at h
        | byte | string =>
          have := Bytes_ne_eol hk2 he2
          simp only at h
          split at h
          · rename_i heq
            simp only [Prod.mk.injEq, Except.error.injEq] at h
            rw [heq, h.1] at this
            exact this rfl
          · simp at h
      · simp only [Prod.mk.injEq, Except.error.injEq] at h
        obtain ⟨rfl, rfl⟩ := h
        exact Kind_eq_eol hk hK

/-! ## `DecodeBytes` into an interface -/

theorem room_reset (b : List UInt8) : (Stream.reset b b.length).Room b.length where
  list _ _ h := by simp [Stream.reset] at h
  limit _ := by simp [Stream.reset]

theorem decodeBytes_item (v : Item) (bound : v.encode.length < 2 ^ 64) :
    decodeBytes .iface v.encode = .ok (.iface (some (v.goType, v.goValue))) := by
  let s := Stream.reset v.encode v.encode.length
  obtain ⟨s', dec, c, -⟩ := decodeInterface_item v (s.r.length + 1) s [] rfl
    (by simp [s, Stream.reset]) (room_reset _) (by simp [s, Stream.reset]) bound
  -- the whole input is consumed
  have done : s'.r = [] := by simpa [s, Stream.reset] using c.r
  unfold decodeBytes
  simp only [decodeValue]
  rw [dec]
  simp [done]

/-- What `DecodeBytes` into an interface returns is an item, and the input
was that item's encoding. -/
theorem decodeBytes_sound {b : List UInt8} {w : GoValue} (h : decodeBytes .iface b = .ok w) :
    ∃ v : Item, w = .iface (some (v.goType, v.goValue)) ∧ v.encode = b := by
  unfold decodeBytes at h
  simp only [decodeValue] at h
  split at h
  · simp at h
  · rename_i w' s' dec
    obtain ⟨v, rfl, c, -⟩ := (decodeInterface_reads _).ok _ _ _ rfl dec
    -- a trailing byte is an error, which closes that branch
    split_ifs at h with trailing
    simp only [Except.ok.injEq] at h
    subst h
    have done : s'.r = [] := List.eq_nil_of_length_eq_zero (by omega)
    refine ⟨v, rfl, ?_⟩
    simpa [Stream.reset, done] using c.r.symm

/-- Writing an interface value writes its dynamic value. -/
theorem encodeToBytes_iface (ty : GoType) (v : GoValue) :
    encodeToBytes .iface (.iface (some (ty, v))) = encodeToBytes ty v := by
  simp [encodeToBytes, writeValue]

/-! ## Round trips -/

theorem decodeBytes_encodeToBytes_item (v : Item) (bound : v.encode.length < 2 ^ 64) :
    encodeToBytes v.goType v.goValue = .ok v.encode ∧
      decodeBytes .iface v.encode = .ok (.iface (some (v.goType, v.goValue))) :=
  ⟨encodeToBytes_item v bound, decodeBytes_item v bound⟩

theorem decodeBytes_encodeToBytes_nested :
    (Item.list [.bytes [0x61, 0x62, 0x63], .list [.list []], .bytes [0x05]]).encode.length < 2 ^ 64 ∧
      encodeToBytes (Item.list [.bytes [0x61, 0x62, 0x63], .list [.list []], .bytes [0x05]]).goType
          (Item.list [.bytes [0x61, 0x62, 0x63], .list [.list []], .bytes [0x05]]).goValue =
        .ok (Item.list [.bytes [0x61, 0x62, 0x63], .list [.list []], .bytes [0x05]]).encode ∧
      decodeBytes .iface (Item.list [.bytes [0x61, 0x62, 0x63], .list [.list []], .bytes [0x05]]).encode =
        .ok (.iface (some ((Item.list [.bytes [0x61, 0x62, 0x63], .list [.list []], .bytes [0x05]]).goType,
          (Item.list [.bytes [0x61, 0x62, 0x63], .list [.list []], .bytes [0x05]]).goValue))) :=
  ⟨by decide, decodeBytes_encodeToBytes_item _ (by decide)⟩

theorem encodeToBytes_decodeBytes_iface {b : List UInt8} {w : GoValue}
    (h : decodeBytes .iface b = .ok w) (bound : b.length < 2 ^ 64) :
    encodeToBytes .iface w = .ok b := by
  obtain ⟨v, rfl, rfl⟩ := decodeBytes_sound h
  rw [encodeToBytes_iface, encodeToBytes_item v bound]

theorem encodeToBytes_decodeBytes_example :
    decodeBytes .iface [0xC5, 0x83, 0x61, 0x62, 0x63, 0xC0] =
        .ok (.iface (some (ifsliceType, .slice [.iface (some (bytesType, .bytes [0x61, 0x62, 0x63])),
          .iface (some (ifsliceType, .slice []))]))) ∧
      [0xC5, 0x83, 0x61, 0x62, 0x63, 0xC0].length < 2 ^ 64 ∧
      encodeToBytes .iface (.iface (some (ifsliceType, .slice [.iface (some (bytesType,
          .bytes [0x61, 0x62, 0x63])), .iface (some (ifsliceType, .slice []))]))) =
        .ok [0xC5, 0x83, 0x61, 0x62, 0x63, 0xC0] :=
  ⟨rfl, by decide, encodeToBytes_decodeBytes_iface rfl (by decide)⟩

end FiscoBcos.Rlp
