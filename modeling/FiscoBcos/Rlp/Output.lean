import FiscoBcos.Rlp.ItemWriter
import FiscoBcos.Lib.Except
import Mathlib

/-!
# The three outputs of the encoder

`Encode`, `EncodeToBytes` and `EncodeToReader` in `rlp/encode.go` run the
writers into a reset `encbuf` and hand out its contents in three ways.
`toBytes` splices the list headers into the string data in one buffer of
`size()` bytes. `toWriter` writes the string data before each header, then
the header, to an `io.Writer`. `encReader` serves the same pieces through
`Read` calls into buffers of any size, and keeps the rest of a piece that did
not fit for the next call.

Every writer extends the buffer by string data and by list headers that it
closes before it returns, at increasing offsets inside the data it added, and
counts their lengths into `lhsize` (`Grows`, `grows_writeValue`). Over such a
buffer each output is the splice of the headers into the string data: the
writes of `toWriter` (`flatten_toWriter`), and the bytes of the `Read` calls,
each of which returns what is left of the splice up to its buffer's size
(`EncReader.rest`, `readAll_spec`). The splice has `size()` bytes when the
sizes fit in `uint64` (`length_toBytes`), which every Go `int` does.

The writer of `Encode` takes every write whole, as `bytes.Buffer` does, and
`Encode` is called on a writer that is not itself an `encbuf`.
-/

namespace FiscoBcos.Rlp

/-! ## The writer and the reader -/

namespace Encbuf

/-- One round of the loop of `toWriter`: the string data before the header,
if there is any, then the header. `strpos` advances by what was written. -/
def toWriterStep (str : List UInt8) (acc : List (List UInt8) × Nat) (head : Listhead) :
    List (List UInt8) × Nat :=
  if head.offset - acc.2 > 0 then
    let data := (str.drop acc.2).take (head.offset - acc.2)
    (acc.1 ++ [data, head.encode], acc.2 + data.length)
  else (acc.1 ++ [head.encode], acc.2)

/-- `encbuf.toWriter`: the writes it makes, in order. -/
def toWriter (w : Encbuf) : List (List UInt8) :=
  let written := w.lheads.foldl (toWriterStep w.str) ([], 0)
  if written.2 < w.str.length then written.1 ++ [w.str.drop written.2] else written.1

end Encbuf

/-- `encReader`: the buffer, nil once `Read` has met EOF; the index of the
next list header; the position in the string data; and the rest of a piece
that did not fit, nil when there is none. -/
structure EncReader where
  buf : Option Encbuf
  lhpos : Nat
  strpos : Nat
  piece : Option (List UInt8)

namespace EncReader

/-- `encReader.next`: the next piece to read, nil at EOF. -/
def next (r : EncReader) : Option (List UInt8) × EncReader :=
  match r.buf with
  | none => (none, r)
  | some buf =>
    match r.piece with
    | some piece => (some piece, r)
    | none =>
      match buf.lheads[r.lhpos]? with
      | some head =>
        let sizebefore := head.offset - r.strpos
        if sizebefore > 0 then
          (some ((buf.str.drop r.strpos).take sizebefore), { r with strpos := r.strpos + sizebefore })
        else (some head.encode, { r with lhpos := r.lhpos + 1 })
      | none =>
        if r.strpos < buf.str.length then
          (some (buf.str.drop r.strpos), { r with strpos := buf.str.length })
        else (none, r)

/-- What every round of the loop of `Read` lowers: a pending piece, the
headers left, and string data before the next header or at the end. -/
def rank (r : EncReader) : Nat :=
  match r.buf with
  | none => 0
  | some buf =>
    (if r.piece.isSome then 1 else 0) + 3 * (buf.lheads.length - r.lhpos) +
      match buf.lheads[r.lhpos]? with
      | some head => if r.strpos < head.offset then 1 else 0
      | none => if r.strpos < buf.str.length then 1 else 0

theorem rank_next {r r' : EncReader} {piece : List UInt8} (h : r.next = (some piece, r')) :
    ({ r' with piece := none } : EncReader).rank < r.rank := by
  unfold next at h
  rcases hbuf : r.buf with _ | buf
  · rw [hbuf] at h
    cases h
  rw [hbuf] at h
  dsimp only at h
  rcases hpiece : r.piece with _ | p
  · rw [hpiece] at h
    dsimp only at h
    rcases hhead : buf.lheads[r.lhpos]? with _ | head
    · -- the string data after the last header
      rw [hhead] at h
      dsimp only at h
      split at h
      · rename_i before
        cases h
        simp [rank, hbuf, hpiece, hhead, before]
      · cases h
    · rw [hhead] at h
      dsimp only at h
      have within : r.lhpos < buf.lheads.length := (List.getElem?_eq_some_iff.mp hhead).1
      split at h
      · -- the string data before the header
        rename_i before
        cases h
        have lt : r.strpos < head.offset := by omega
        simp [rank, hbuf, hpiece, hhead, lt, Nat.add_sub_cancel' (Nat.le_of_lt lt)]
      · -- the header itself
        cases h
        simp only [rank, hbuf, hpiece, Option.isSome_none, Bool.false_eq_true, if_false, Nat.zero_add]
        split <;> split <;> omega
  · rw [hpiece] at h
    cases h
    simp [rank, hbuf, hpiece]

/-- The loop of `encReader.Read` into a buffer of `m` bytes of which `n` are
filled: the bytes read, whether it met EOF, and the reader after. -/
def readLoop (m : Nat) (n : List UInt8) (r : EncReader) : List UInt8 × Bool × EncReader :=
  match h : r.next with
  | (none, r') => (n, true, { r' with piece := none, buf := none })
  | (some piece, r') =>
    let nn := min (m - n.length) piece.length
    if nn < piece.length then (n ++ piece.take nn, false, { r' with piece := some (piece.drop nn) })
    else readLoop m (n ++ piece) { r' with piece := none }
termination_by r.rank
decreasing_by exact rank_next h

/-- `encReader.Read` into a buffer of `m` bytes: the bytes read, whether it
returned `io.EOF`, and the reader after. -/
def Read (r : EncReader) (m : Nat) : List UInt8 × Bool × EncReader := r.readLoop m []

end EncReader

/-- `Read` calls into buffers of the given sizes, up to the first that returns
`io.EOF`: the bytes they returned, and whether one returned `io.EOF`. -/
def readAll : List Nat → EncReader → List UInt8 × Bool
  | [], _ => ([], false)
  | m :: sizes, r =>
    match r.Read m with
    | (n, true, _) => (n, true)
    | (n, false, r) => (n ++ (readAll sizes r).1, (readAll sizes r).2)

/-- `Encode(w, val)`, for `val` of dynamic type `ty` holding `v`: the bytes
written to `w`. -/
def Encode (ty : GoType) (v : GoValue) : Except Error (List UInt8) :=
  (writeValue ty Tags.none v Encbuf.empty).map fun eb => eb.toWriter.flatten

/-- `EncodeToReader(val)`: the size of the encoding and a reader at its start. -/
def EncodeToReader (ty : GoType) (v : GoValue) : Except Error (Nat × EncReader) :=
  (writeValue ty Tags.none v Encbuf.empty).map fun eb => (eb.size, ⟨some eb, 0, 0, none⟩)

/-! ## What a writer does to the buffer -/

/-- The length `listEnd` counts into `lhsize` for a closed header. -/
def Listhead.counted (head : Listhead) : Nat :=
  if head.size < 56 then 1 else 1 + intsize head.size.toUInt64

/-- `w'` extends `w` by the string data `added` and the closed headers
`heads`: at increasing offsets inside the added data, counted into `lhsize`,
and none larger than what was added. -/
structure Encbuf.Extends (w : Encbuf) (added : List UInt8) (heads : List Listhead) (w' : Encbuf) :
    Prop where
  str : w'.str = w.str ++ added
  lheads : w'.lheads = w.lheads ++ heads
  sorted : heads.Pairwise fun a b => a.offset ≤ b.offset
  within : ∀ head ∈ heads, w.str.length ≤ head.offset ∧ head.offset ≤ w'.str.length
  lhsize : w'.lhsize = w.lhsize + (heads.map Listhead.counted).sum
  bounded : ∀ head ∈ heads, head.size ≤ added.length + (heads.map Listhead.counted).sum

/-- What every writer does to the buffer. -/
def Encbuf.Grows (w w' : Encbuf) : Prop := ∃ added heads, w.Extends added heads w'

namespace Encbuf

theorem Grows.refl (w : Encbuf) : w.Grows w :=
  ⟨[], [], (List.append_nil _).symm, (List.append_nil _).symm, List.Pairwise.nil,
    fun _ mem => absurd mem List.not_mem_nil, rfl, fun _ mem => absurd mem List.not_mem_nil⟩

theorem Grows.trans {w₁ w₂ w₃ : Encbuf} (first : w₁.Grows w₂) (second : w₂.Grows w₃) : w₁.Grows w₃ := by
  obtain ⟨added₁, heads₁, e₁⟩ := first
  obtain ⟨added₂, heads₂, e₂⟩ := second
  have long : w₂.str.length = w₁.str.length + added₁.length := by rw [e₁.str, List.length_append]
  have long' : w₃.str.length = w₂.str.length + added₂.length := by rw [e₂.str, List.length_append]
  refine ⟨added₁ ++ added₂, heads₁ ++ heads₂, ?_, ?_, ?_, ?_, ?_, ?_⟩
  · rw [e₂.str, e₁.str, List.append_assoc]
  · rw [e₂.lheads, e₁.lheads, List.append_assoc]
  · -- the later headers sit after all the string data of the first writer
    refine List.pairwise_append.mpr ⟨e₁.sorted, e₂.sorted, fun a mem b mem' => ?_⟩
    exact Nat.le_trans (e₁.within a mem).2 (e₂.within b mem').1
  · intro head mem
    rcases List.mem_append.mp mem with old | new
    · have := e₁.within head old
      omega
    · have := e₂.within head new
      omega
  · rw [e₂.lhsize, e₁.lhsize, List.map_append, List.sum_append, Nat.add_assoc]
  · intro head mem
    simp only [List.length_append, List.map_append, List.sum_append]
    rcases List.mem_append.mp mem with old | new
    · have := e₁.bounded head old
      omega
    · have := e₂.bounded head new
      omega

theorem Grows.append (w : Encbuf) (b : List UInt8) : w.Grows (w.append b) :=
  ⟨b, [], rfl, (List.append_nil _).symm, List.Pairwise.nil, fun _ mem => absurd mem List.not_mem_nil,
    rfl, fun _ mem => absurd mem List.not_mem_nil⟩

/-- `listEnd` on the header at index `pre.length`, opened at `offset` when
`lhsize` was `opened`, records the payload written since and counts it. -/
theorem listEnd_last (str : List UInt8) (pre inner : List Listhead) (lhsize offset opened : Nat) :
    Encbuf.listEnd ⟨str, pre ++ ⟨offset, opened⟩ :: inner, lhsize⟩ pre.length =
      ⟨str, pre ++ ⟨offset, str.length + lhsize - offset - opened⟩ :: inner,
        lhsize + Listhead.counted ⟨offset, str.length + lhsize - offset - opened⟩⟩ := by
  have at_head : (pre ++ ⟨offset, opened⟩ :: inner)[pre.length]? = some ⟨offset, opened⟩ := by
    simp
  simp only [Encbuf.listEnd, at_head, Encbuf.size, List.set_append_right _ _ (le_refl _),
    Nat.sub_self, List.set_cons_zero, Listhead.counted]
  by_cases small : str.length + lhsize - offset - opened < 56
  · simp only [small, if_true]
  · simp only [small, if_false, Nat.add_assoc]

/-- A header opened by `list` and closed by `listEnd` around a writer: its
payload is all that the writer added. -/
theorem Grows.listEnd {w w₂ : Encbuf} (inner : w.list.1.Grows w₂) : w.Grows (w₂.listEnd w.list.2) := by
  obtain ⟨added, heads, e⟩ := inner
  have str : w₂.str = w.str ++ added := e.str
  have lheads : w₂.lheads = w.lheads ++ ⟨w.str.length, w.lhsize⟩ :: heads := by
    rw [e.lheads]
    simp [Encbuf.list]
  have lhsize : w₂.lhsize = w.lhsize + (heads.map Listhead.counted).sum := e.lhsize
  have payload : w₂.str.length + w₂.lhsize - w.str.length - w.lhsize =
      added.length + (heads.map Listhead.counted).sum := by
    rw [str, lhsize, List.length_append]
    omega
  have closed : w₂.listEnd w.list.2 =
      ⟨w₂.str, w.lheads ++ ⟨w.str.length, added.length + (heads.map Listhead.counted).sum⟩ :: heads,
        w₂.lhsize + Listhead.counted ⟨w.str.length, added.length + (heads.map Listhead.counted).sum⟩⟩ := by
    rw [← payload]
    have eq : w₂ = ⟨w₂.str, w.lheads ++ ⟨w.str.length, w.lhsize⟩ :: heads, w₂.lhsize⟩ := by
      rw [← lheads]
    rw [eq]
    exact listEnd_last w₂.str w.lheads heads w₂.lhsize w.str.length w.lhsize
  rw [closed]
  refine ⟨added, ⟨w.str.length, added.length + (heads.map Listhead.counted).sum⟩ :: heads,
    str, rfl, ?_, ?_, ?_, ?_⟩
  · exact List.pairwise_cons.mpr ⟨fun head mem => (e.within head mem).1, e.sorted⟩
  · intro head mem
    rcases List.mem_cons.mp mem with rfl | old
    · dsimp only
      exact ⟨Nat.le_refl _, by rw [str, List.length_append]; omega⟩
    · exact e.within head old
  · simp only [lhsize, List.map_cons, List.sum_cons]
    omega
  · intro head mem
    simp only [List.map_cons, List.sum_cons]
    rcases List.mem_cons.mp mem with rfl | old
    · dsimp only
      omega
    · have := e.bounded head old
      omega

end Encbuf

/-! ## Every writer grows the buffer -/

namespace Encbuf

theorem grows_encodeStringHeader (w : Encbuf) (size : Nat) : w.Grows (w.encodeStringHeader size) := by
  unfold encodeStringHeader
  split
  · exact Grows.append w _
  · exact Grows.append w _

theorem grows_encodeString (w : Encbuf) (b : List UInt8) : w.Grows (w.encodeString b) := by
  unfold encodeString
  split
  · exact Grows.append w b
  · exact (grows_encodeStringHeader w b.length).trans (Grows.append _ b)

theorem grows_writeUint (w : Encbuf) (i : UInt64) : w.Grows (w.writeUint i) := by
  unfold writeUint
  split_ifs
  · exact Grows.append w _
  · exact Grows.append w _
  · exact Grows.append w _

theorem grows_writeBool (w : Encbuf) (b : Bool) : w.Grows (w.writeBool b) := by
  unfold writeBool
  split
  · exact Grows.append w _
  · exact Grows.append w _

theorem grows_writeBigInt {w w' : Encbuf} {i : Int} (h : w.writeBigInt i = .ok w') : w.Grows w' := by
  unfold writeBigInt at h
  split_ifs at h
  · cases h
    exact Grows.append w _
  · cases h
    exact grows_encodeString w _

end Encbuf

open Encbuf

theorem grows_writeTimes {write : Encbuf → Except Error Encbuf}
    (step : ∀ w w', write w = .ok w' → w.Grows w') :
    ∀ (n : Nat) (w w' : Encbuf), writeTimes write n w = .ok w' → w.Grows w'
  | 0, w, w', h => by
    cases h
    exact Grows.refl w
  | n + 1, w, w', h => by
    simp only [writeTimes] at h
    split at h
    · cases h
    · rename_i w₁ first
      exact (step w w₁ first).trans (grows_writeTimes step n w₁ w' h)

mutual
/-- The writer of a zero value grows the buffer. -/
theorem grows_writeZero : ∀ (ty : GoType) (ts : Tags) (w w' : Encbuf), writeZero ty ts w = .ok w' → w.Grows w'
  | .uint _, _, w, _, h => by
    simp only [writeZero] at h
    cases h
    exact grows_writeUint w 0
  | .bool, _, w, _, h => by
    simp only [writeZero] at h
    cases h
    exact grows_writeBool w false
  | .string, _, w, _, h => by
    simp only [writeZero] at h
    cases h
    exact grows_encodeString w []
  | .bigInt, _, _, _, h => grows_writeBigInt h
  | .ptr elem, _, w, w', h => by
    -- `nilfunc`: the empty string, an empty list, or the zero of the element
    unfold writeZero at h
    dsimp only at h
    split at h
    · cases h
      exact Grows.append w _
    · cases h
      exact Grows.listEnd (Grows.refl _)
    · cases h
      exact Grows.listEnd (Grows.refl _)
    · cases h
      exact Grows.append w _
    · exact grows_writeZero _ Tags.none w w' h
  | .slice elem, ts, w, w', h => by
    simp only [writeZero] at h
    split_ifs at h
    · cases h
      exact grows_encodeString w []
    · cases h
      exact Grows.refl w
    · cases h
      exact Grows.listEnd (Grows.refl _)
  | .array n elem, _, w, w', h => by
    simp only [writeZero] at h
    split_ifs at h
    · cases h
      exact grows_encodeString w _
    · obtain ⟨w₂, elems, rfl⟩ := Except.map_eq_ok_iff.mp h
      exact Grows.listEnd (grows_writeTimes (grows_writeZero elem Tags.none) n _ w₂ elems)
  | .struct fields, _, w, w', h => by
    simp only [writeZero] at h
    split at h
    · cases h
    · obtain ⟨w₂, elems, rfl⟩ := Except.map_eq_ok_iff.mp h
      exact Grows.listEnd (grows_writeZeroFields fields _ w₂ elems)
  | .iface, _, w, _, h => by
    simp only [writeZero] at h
    cases h
    exact Grows.append w _
/-- The writer of the zero fields of a struct grows the buffer. -/
theorem grows_writeZeroFields : ∀ (fields : List (GoType × Tags)) (w w' : Encbuf),
    writeZeroFields fields w = .ok w' → w.Grows w'
  | [], w, _, h => by
    simp only [writeZeroFields] at h
    cases h
    exact Grows.refl w
  | (ty, ts) :: fields, w, w', h => by
    simp only [writeZeroFields] at h
    split_ifs at h
    · exact grows_writeZeroFields fields w w' h
    · split at h
      · cases h
      · rename_i w₁ first
        exact (grows_writeZero ty ts w w₁ first).trans (grows_writeZeroFields fields w₁ w' h)
end

mutual
/-- The writer of every value grows the buffer. -/
theorem grows_writeValue : ∀ (ty : GoType) (ts : Tags) (v : GoValue) (w w' : Encbuf),
    writeValue ty ts v w = .ok w' → w.Grows w'
  | _, _, .uint i, w, _, h => by
    simp only [writeValue] at h
    split at h
    · cases h
      exact grows_writeUint w i
    · cases h
  | _, _, .bool b, w, _, h => by
    simp only [writeValue] at h
    split at h
    · cases h
      exact grows_writeBool w b
    · cases h
  | _, _, .string str, w, _, h => by
    simp only [writeValue] at h
    split at h
    · cases h
      exact grows_encodeString w str
    · cases h
  | _, _, .bigInt i, _, _, h => by
    simp only [writeValue] at h
    split at h
    · exact grows_writeBigInt h
    · cases h
  | _, _, .bytes b, w, _, h => by
    -- `writeBytes` and `writeByteArray`
    simp only [writeValue] at h
    split at h
    · split_ifs at h
      cases h
      exact grows_encodeString w b
    · split_ifs at h
      cases h
      exact grows_encodeString w b
    · cases h
  | _, _, .ptr none, w, w', h => by
    simp only [writeValue] at h
    split at h
    · exact grows_writeZero _ Tags.none w w' h
    · cases h
  | _, _, .ptr (some v), w, w', h => by
    simp only [writeValue] at h
    split at h
    · -- `writeBigIntPtr`
      split at h
      · exact grows_writeBigInt h
      · cases h
    · exact grows_writeValue _ Tags.none v w w' h
    · cases h
  | _, _, .slice vs, w, w', h => by
    simp only [writeValue] at h
    split at h
    · split_ifs at h
      · exact grows_writeElems _ vs w w' h
      · obtain ⟨w₂, elems, rfl⟩ := Except.map_eq_ok_iff.mp h
        exact Grows.listEnd (grows_writeElems _ vs _ w₂ elems)
    · obtain ⟨w₂, elems, rfl⟩ := Except.map_eq_ok_iff.mp h
      exact Grows.listEnd (grows_writeElems _ vs _ w₂ elems)
    · cases h
  | _, _, .struct vs, w, w', h => by
    simp only [writeValue] at h
    split at h
    · split at h
      · cases h
      · obtain ⟨w₂, fields, rfl⟩ := Except.map_eq_ok_iff.mp h
        exact Grows.listEnd (grows_writeFields _ vs _ w₂ fields)
    · cases h
  | _, _, .iface none, w, _, h => by
    simp only [writeValue] at h
    split at h
    · cases h
      exact Grows.append w _
    · cases h
  | _, _, .iface (some (dyn, v)), w, w', h => by
    simp only [writeValue] at h
    split at h
    · exact grows_writeValue dyn Tags.none v w w' h
    · cases h
/-- The element loop of the slice writer grows the buffer. -/
theorem grows_writeElems : ∀ (elem : GoType) (vs : List GoValue) (w w' : Encbuf),
    writeElems elem vs w = .ok w' → w.Grows w'
  | _, [], w, _, h => by
    simp only [writeElems] at h
    cases h
    exact Grows.refl w
  | elem, v :: vs, w, w', h => by
    simp only [writeElems] at h
    split at h
    · cases h
    · rename_i w₁ first
      exact (grows_writeValue elem Tags.none v w w₁ first).trans (grows_writeElems elem vs w₁ w' h)
/-- The field loop of the struct writer grows the buffer. -/
theorem grows_writeFields : ∀ (fields : List (GoType × Tags)) (vs : List GoValue) (w w' : Encbuf),
    writeFields fields vs w = .ok w' → w.Grows w'
  | (ty, ts) :: fields, v :: vs, w, w', h => by
    simp only [writeFields] at h
    split_ifs at h
    · exact grows_writeFields fields vs w w' h
    · split at h
      · cases h
      · rename_i w₁ first
        exact (grows_writeValue ty ts v w w₁ first).trans (grows_writeFields fields vs w₁ w' h)
  | [], _, w, _, h => by
    simp only [writeFields] at h
    cases h
    exact Grows.refl w
  | _ :: _, [], w, _, h => by
    simp only [writeFields] at h
    cases h
    exact Grows.refl w
end

/-! ## The splice of the headers into the string data -/

/-- Headers at increasing offsets, from `pos` up to the end of the string
data. -/
structure Fits (str : List UInt8) (pos : Nat) (heads : List Listhead) : Prop where
  sorted : heads.Pairwise fun a b => a.offset ≤ b.offset
  within : ∀ head ∈ heads, pos ≤ head.offset ∧ head.offset ≤ str.length

theorem Fits.tail {str : List UInt8} {pos : Nat} {head : Listhead} {heads : List Listhead}
    (fits : Fits str pos (head :: heads)) : Fits str head.offset heads :=
  ⟨(List.pairwise_cons.mp fits.sorted).2, fun h mem =>
    ⟨(List.pairwise_cons.mp fits.sorted).1 h mem, (fits.within h (List.mem_cons_of_mem _ mem)).2⟩⟩

/-- The string data before a header that fits, from `pos` on. -/
theorem length_before {str : List UInt8} {pos offset : Nat} (le : offset ≤ str.length) :
    ((str.drop pos).take (offset - pos)).length = offset - pos := by
  simp only [List.length_take, List.length_drop]
  omega

theorem length_splice {str : List UInt8} :
    ∀ {heads : List Listhead} {pos : Nat}, Fits str pos heads →
      (splice str heads pos).length = str.length - pos + (heads.map fun head => head.encode.length).sum
  | [], _, _ => by simp [splice]
  | head :: heads, pos, fits => by
    have inside := fits.within head (List.mem_cons_self ..)
    rw [splice, List.length_append, List.length_append, length_splice fits.tail, length_before inside.2,
      List.map_cons, List.sum_cons]
    omega

/-- The loop of `toWriter` writes the splice from `pos` up to the position it
stops at. -/
theorem foldl_toWriterStep {str : List UInt8} :
    ∀ {heads : List Listhead} {pos : Nat} (acc : List (List UInt8)), Fits str pos heads →
      (heads.foldl (Encbuf.toWriterStep str) (acc, pos)).1.flatten ++
          str.drop (heads.foldl (Encbuf.toWriterStep str) (acc, pos)).2 =
        acc.flatten ++ splice str heads pos
  | [], pos, acc, _ => rfl
  | head :: heads, pos, acc, fits => by
    have inside := fits.within head (List.mem_cons_self ..)
    rw [List.foldl_cons, splice]
    by_cases before : head.offset - pos > 0
    · -- the string data before the header, then the header
      have step : Encbuf.toWriterStep str (acc, pos) head =
          (acc ++ [(str.drop pos).take (head.offset - pos), head.encode], head.offset) := by
        rw [Encbuf.toWriterStep, if_pos before]
        dsimp only
        rw [length_before inside.2]
        simp only [Prod.mk.injEq, true_and]
        omega
      rw [step, foldl_toWriterStep _ fits.tail]
      simp
    · -- the header sits where the last one ended
      have same : head.offset = pos := by omega
      have step : Encbuf.toWriterStep str (acc, pos) head = (acc ++ [head.encode], pos) := by
        rw [Encbuf.toWriterStep, if_neg before]
      have fits' : Fits str pos heads := same ▸ fits.tail
      rw [step, foldl_toWriterStep _ fits', same]
      simp

/-- `toWriter` writes the splice. -/
theorem flatten_toWriter {w : Encbuf} (fits : Fits w.str 0 w.lheads) : w.toWriter.flatten = w.toBytes := by
  have loop := foldl_toWriterStep [] fits
  rw [List.flatten_nil, List.nil_append] at loop
  rw [Encbuf.toBytes_eq_splice, ← loop, Encbuf.toWriter]
  split
  · rw [List.flatten_append, List.flatten_singleton]
  · rw [List.drop_eq_nil_of_le (by omega), List.append_nil]

/-- The buffer a writer leaves in a reset one: its headers fit, and `lhsize`
counts their encodings, where their sizes fit in `uint64`. -/
theorem written {eb : Encbuf} (grows : Encbuf.empty.Grows eb) (fits : eb.size < 2 ^ 64) :
    Fits eb.str 0 eb.lheads ∧ eb.lhsize = (eb.lheads.map fun head => head.encode.length).sum := by
  obtain ⟨added, heads, e⟩ := grows
  have str : eb.str = added := e.str
  have lheads : eb.lheads = heads := e.lheads
  have lhsize : eb.lhsize = (heads.map Listhead.counted).sum := by
    rw [e.lhsize]
    exact Nat.zero_add _
  refine ⟨⟨lheads ▸ e.sorted, fun head mem => ⟨Nat.zero_le _, (e.within head (lheads ▸ mem)).2⟩⟩, ?_⟩
  -- every header's size is below the buffer's, so `uint64(size)` is exact
  have exact : ∀ head ∈ heads, head.counted = head.encode.length := by
    intro head mem
    have small : head.size < 2 ^ 64 := by
      have := e.bounded head mem
      simp only [Encbuf.size, str, lhsize] at fits
      omega
    rw [Listhead.encode_eq head small]
    exact length_header_list small
  rw [lhsize, lheads, List.map_congr_left exact]

/-- `toBytes` fills the `size()` bytes it allocates. -/
theorem length_toBytes {eb : Encbuf} (grows : Encbuf.empty.Grows eb) (fits : eb.size < 2 ^ 64) :
    eb.toBytes.length = eb.size := by
  obtain ⟨fit, counted⟩ := written grows fits
  rw [Encbuf.toBytes_eq_splice, length_splice fit, Encbuf.size, counted, Nat.sub_zero]

/-! ## What the reader serves -/

theorem Listhead.encode_ne_nil (head : Listhead) : head.encode ≠ [] := by
  unfold Listhead.encode puthead
  split <;> simp

namespace EncReader

/-- What is left to read: the pending piece, then the splice of the headers
not yet read into the string data from `strpos` on. -/
def rest (r : EncReader) : List UInt8 :=
  match r.buf with
  | none => []
  | some buf => r.piece.getD [] ++ splice buf.str (buf.lheads.drop r.lhpos) r.strpos

/-- A reader whose headers left fit its string data from `strpos` on, with no
empty piece pending. -/
structure Good (r : EncReader) : Prop where
  fits : ∀ buf, r.buf = some buf → Fits buf.str r.strpos (buf.lheads.drop r.lhpos) ∧ r.strpos ≤ buf.str.length
  piece : r.piece ≠ some []

theorem rest_piece {r : EncReader} {buf : Encbuf} (hbuf : r.buf = some buf) (piece : List UInt8) :
    ({ r with piece := some piece } : EncReader).rest = piece ++ ({ r with piece := none } : EncReader).rest := by
  simp [rest, hbuf]

theorem Good.piece_of {r : EncReader} (good : ({ r with piece := none } : EncReader).Good) {piece : List UInt8}
    (nonempty : piece ≠ []) : ({ r with piece := some piece } : EncReader).Good :=
  ⟨good.fits, fun same => nonempty (Option.some.inj same)⟩

private theorem drop_eq_cons_of_getElem? {α : Type} {l : List α} {i : Nat} {x : α} (h : l[i]? = some x) :
    l.drop i = x :: l.drop (i + 1) := by
  obtain ⟨lt, rfl⟩ := List.getElem?_eq_some_iff.mp h
  exact List.drop_eq_getElem_cons lt

/-- `next` finds nothing only where nothing is left. -/
theorem next_none {r r' : EncReader} (good : r.Good) (h : r.next = (none, r')) : r.rest = [] ∧ r' = r := by
  unfold next at h
  rcases hbuf : r.buf with _ | buf
  · rw [hbuf] at h
    cases h
    exact ⟨by simp [rest, hbuf], rfl⟩
  rw [hbuf] at h
  obtain ⟨fits, inside⟩ := good.fits buf hbuf
  rcases hpiece : r.piece with _ | p
  · rw [hpiece] at h
    dsimp only at h
    rcases hhead : buf.lheads[r.lhpos]? with _ | head
    · rw [hhead] at h
      dsimp only at h
      split at h
      · cases h
      · rename_i done
        cases h
        have none_left : buf.lheads.drop r.lhpos = [] :=
          List.drop_eq_nil_of_le (by simpa using hhead)
        refine ⟨?_, rfl⟩
        simp [rest, hbuf, hpiece, none_left, splice, List.drop_eq_nil_of_le (Nat.le_of_not_lt done)]
    · rw [hhead] at h
      dsimp only at h
      split at h <;> cases h
  · rw [hpiece] at h
    cases h

/-- `next` serves the first piece of what is left, never an empty one. -/
theorem next_some {r r' : EncReader} {piece : List UInt8} (good : r.Good) (h : r.next = (some piece, r')) :
    piece ≠ [] ∧ r.rest = piece ++ ({ r' with piece := none } : EncReader).rest ∧
      ({ r' with piece := none } : EncReader).Good ∧ r'.buf = r.buf := by
  unfold next at h
  rcases hbuf : r.buf with _ | buf
  · rw [hbuf] at h
    cases h
  rw [hbuf] at h
  dsimp only at h
  obtain ⟨fits, inside⟩ := good.fits buf hbuf
  rcases hpiece : r.piece with _ | p
  · rw [hpiece] at h
    dsimp only at h
    rcases hhead : buf.lheads[r.lhpos]? with _ | head
    · -- the string data after the last header
      rw [hhead] at h
      dsimp only at h
      split at h
      · rename_i before
        cases h
        have none_left : buf.lheads.drop r.lhpos = [] :=
          List.drop_eq_nil_of_le (by simpa using hhead)
        refine ⟨by simpa using before, ?_, ⟨fun buf' same => ?_, by simp⟩, rfl⟩
        · simp [rest, hbuf, hpiece, none_left, splice]
        · simp only [Option.some.injEq] at same
          subst same
          simp only [none_left]
          exact ⟨⟨List.Pairwise.nil, fun _ mem => absurd mem List.not_mem_nil⟩, Nat.le_refl _⟩
      · cases h
    · have heads := drop_eq_cons_of_getElem? hhead
      have at_head := fits.within head (by rw [heads]; exact List.mem_cons_self ..)
      rw [hhead] at h
      dsimp only at h
      split at h
      · -- the string data before the header
        rename_i before
        cases h
        have moved : r.strpos + (head.offset - r.strpos) = head.offset := by omega
        refine ⟨?_, ?_, ⟨fun buf' same => ?_, by simp⟩, rfl⟩
        · rw [← List.length_pos_iff_ne_nil, length_before at_head.2]
          exact before
        · simp only [rest, hbuf, hpiece, Option.getD_none, List.nil_append, heads, splice, moved,
            Nat.sub_self, List.take_zero, List.append_assoc]
        · simp only [Option.some.injEq] at same
          subst same
          refine ⟨?_, ?_⟩
          · dsimp only
            rw [moved, heads]
            rw [heads] at fits
            refine ⟨fits.sorted, fun h' mem => ?_⟩
            rcases List.mem_cons.mp mem with rfl | later
            · exact ⟨Nat.le_refl _, at_head.2⟩
            · exact fits.tail.within h' later
          · dsimp only
            omega
      · -- the header itself, where the string data before it ends
        rename_i before
        cases h
        have same_pos : head.offset = r.strpos := by omega
        refine ⟨?_, ?_, ⟨fun buf' same => ?_, by simp⟩, rfl⟩
        · exact head.encode_ne_nil
        · simp only [rest, hbuf, hpiece, Option.getD_none, List.nil_append, heads, splice, same_pos,
            Nat.sub_self, List.take_zero]
        · simp only [Option.some.injEq] at same
          subst same
          rw [heads] at fits
          exact ⟨same_pos ▸ fits.tail, inside⟩
  · -- the rest of a piece that did not fit
    rw [hpiece] at h
    cases h
    refine ⟨fun empty => good.piece (by rw [hpiece, empty]), by simp [rest, hbuf, hpiece],
      ⟨good.fits, by simp⟩, hbuf⟩

/-- What a `Read` into a buffer of `m` bytes, `n` of them filled, returns:
the next bytes left to read, all of them at EOF and a full buffer before. -/
structure ReadOk (m : Nat) (r : EncReader) (n : List UInt8) (res : List UInt8 × Bool × EncReader) :
    Prop where
  rest : ∃ read, res.1 = n ++ read ∧ r.rest = read ++ res.2.2.rest
  good : res.2.2.Good
  eof : res.2.1 = true → res.2.2.rest = []
  full : res.2.1 = false → res.1.length = m

/-- The loop of `Read` copies pieces until one does not fit or none is left;
the rest of a piece that did not fit waits for the next call. -/
theorem readLoop_spec (m : Nat) (n : List UInt8) (r : EncReader) :
    r.Good → n.length ≤ m → ReadOk m r n (r.readLoop m n) := by
  fun_induction readLoop m n r with
  | case1 n r r' h =>
    intro good _
    obtain ⟨empty, rfl⟩ := next_none good h
    refine ⟨⟨[], (List.append_nil n).symm, ?_⟩, ⟨fun _ absent => (by cases absent), by simp⟩, fun _ => rfl,
      fun eof => (by cases eof)⟩
    rw [empty]
    rfl
  | case2 n r piece r' h nn short =>
    intro good room
    obtain ⟨nonempty, rest_eq, good', same⟩ := next_some good h
    obtain ⟨buf, hbuf⟩ : ∃ buf, r'.buf = some buf := by
      rcases hbuf : r.buf with _ | buf
      · rcases good with ⟨_, _⟩
        simp [next, hbuf] at h
      · exact ⟨buf, same.trans hbuf⟩
    refine ⟨⟨piece.take nn, rfl, ?_⟩, good'.piece_of (by simp; omega), fun eof => (by cases eof), ?_⟩
    · rw [rest_eq, rest_piece hbuf, ← List.append_assoc, List.take_append_drop]
    · intro _
      simp only [List.length_append, List.length_take]
      omega
  | case3 n r piece r' h nn long ih =>
    intro good room
    obtain ⟨_, rest_eq, good', _⟩ := next_some good h
    have fits : (n ++ piece).length ≤ m := by
      simp only [List.length_append]
      omega
    obtain ⟨⟨read, out, rest'⟩, good'', eof, full⟩ := ih good' fits
    exact ⟨⟨piece ++ read, by rw [out, List.append_assoc], by rw [rest_eq, rest', List.append_assoc]⟩,
      good'', eof, full⟩

theorem Read_spec {r : EncReader} (good : r.Good) (m : Nat) : ReadOk m r [] (r.Read m) :=
  readLoop_spec m [] r good (Nat.zero_le m)

end EncReader

/-- `Read` calls into buffers of positive sizes return what is left to read,
in order: all of it once one returns `io.EOF`, and at least a byte a call
before. -/
theorem readAll_spec : ∀ (sizes : List Nat) {r : EncReader}, r.Good → (∀ m ∈ sizes, 0 < m) →
    (readAll sizes r).1 <+: r.rest ∧ ((readAll sizes r).2 = true → (readAll sizes r).1 = r.rest) ∧
      ((readAll sizes r).2 = false → sizes.length ≤ (readAll sizes r).1.length)
  | [], _, _, _ => ⟨List.nil_prefix, fun eof => (by cases eof), fun _ => Nat.le_refl _⟩
  | m :: sizes, r, good, positive => by
    obtain ⟨⟨read, out, rest⟩, good', eof, full⟩ := EncReader.Read_spec good m
    rw [List.nil_append] at out
    rcases hread : r.Read m with ⟨n, _ | _, r'⟩
    · -- the buffer was filled: the next calls read on
      rw [hread] at out rest good' full
      dsimp only at out rest good' full
      have filled : n.length = m := full rfl
      have later := readAll_spec sizes good' fun m' mem => positive m' (List.mem_cons_of_mem m mem)
      simp only [readAll, hread]
      subst out
      refine ⟨?_, fun done => ?_, fun more => ?_⟩
      · rw [rest]
        exact (List.prefix_append_right_inj n).mpr later.1
      · rw [later.2.1 done, rest]
      · have := later.2.2 more
        have := positive m (List.mem_cons_self ..)
        simp only [List.length_cons, List.length_append]
        omega
    · -- `io.EOF`: nothing is left after this call
      rw [hread] at out rest eof
      simp only [readAll, hread]
      dsimp only at out rest eof ⊢
      subst out
      rw [rest, eof rfl, List.append_nil]
      exact ⟨List.prefix_refl _, fun _ => rfl, fun more => (by cases more)⟩

/-! ## The three outputs agree -/

/-- A reader at the start of a buffer whose headers fit. -/
theorem EncReader.good_start {eb : Encbuf} (fits : Fits eb.str 0 eb.lheads) :
    EncReader.Good ⟨some eb, 0, 0, none⟩ := by
  refine ⟨fun buf same => ?_, by simp⟩
  cases same
  exact ⟨fits, Nat.zero_le _⟩

/-- For every value the encoder accepts, whose size fits in a Go `int`, the
bytes `Encode` writes, the bytes `EncodeToBytes` returns and the bytes of any
run of `Read` calls into buffers of positive sizes up to `io.EOF` are one
byte string, of the size `EncodeToReader` returns; and `io.EOF` comes within
one call more than that size. -/
theorem encode_outputs_agree {ty : GoType} {v : GoValue} {size : Nat} {reader : EncReader}
    (encodable : EncodeToReader ty v = .ok (size, reader)) (fits : size < 2 ^ 64) :
    ∃ out, encodeToBytes ty v = .ok out ∧ Encode ty v = .ok out ∧ out.length = size ∧
      ∀ sizes, (∀ m ∈ sizes, 0 < m) →
        (readAll sizes reader).1 <+: out ∧
        ((readAll sizes reader).2 = true → (readAll sizes reader).1 = out) ∧
        (size < sizes.length → (readAll sizes reader).2 = true) := by
  obtain ⟨eb, wrote, same⟩ := Except.map_eq_ok_iff.mp encodable
  cases same
  have grows := grows_writeValue ty Tags.none v Encbuf.empty eb wrote
  have fit := (written grows fits).1
  have length := length_toBytes grows fits
  have start : (⟨some eb, 0, 0, none⟩ : EncReader).rest = eb.toBytes := by
    simp [EncReader.rest, Encbuf.toBytes_eq_splice]
  refine ⟨eb.toBytes, by rw [encodeToBytes, wrote]; rfl, ?_, length, fun sizes positive => ?_⟩
  · rw [Encode, wrote, Except.map_ok_eq, flatten_toWriter fit]
  obtain ⟨pre, all, more⟩ := readAll_spec sizes (EncReader.good_start fit) positive
  rw [start] at pre all
  refine ⟨pre, all, fun enough => ?_⟩
  -- without `io.EOF` each call returned a byte, more than there are
  cases eof : (readAll sizes ⟨some eb, 0, 0, none⟩).2
  · have read := more eof
    have bounded := pre.length_le
    omega
  · rfl

theorem encode_outputs_agree_nested :
    EncodeToReader (.slice (.slice (.uint 64))) (.slice [.slice [.uint 1]]) =
        .ok (3, ⟨some ⟨[0x01], [⟨0, 2⟩, ⟨0, 1⟩], 2⟩, 0, 0, none⟩) ∧ 3 < 2 ^ 64 ∧
      ∃ out, encodeToBytes (.slice (.slice (.uint 64))) (.slice [.slice [.uint 1]]) = .ok out ∧
        Encode (.slice (.slice (.uint 64))) (.slice [.slice [.uint 1]]) = .ok out ∧ out.length = 3 ∧
        ∀ sizes, (∀ m ∈ sizes, 0 < m) →
          (readAll sizes ⟨some ⟨[0x01], [⟨0, 2⟩, ⟨0, 1⟩], 2⟩, 0, 0, none⟩).1 <+: out ∧
          ((readAll sizes ⟨some ⟨[0x01], [⟨0, 2⟩, ⟨0, 1⟩], 2⟩, 0, 0, none⟩).2 = true →
            (readAll sizes ⟨some ⟨[0x01], [⟨0, 2⟩, ⟨0, 1⟩], 2⟩, 0, 0, none⟩).1 = out) ∧
          (3 < sizes.length → (readAll sizes ⟨some ⟨[0x01], [⟨0, 2⟩, ⟨0, 1⟩], 2⟩, 0, 0, none⟩).2 = true) :=
  ⟨rfl, by decide, encode_outputs_agree rfl (by decide)⟩

end FiscoBcos.Rlp
