import FiscoBcos.Rlp.ItemWriter
import Mathlib

/-!
# `encbuf`'s list-header bookkeeping

`list` records where a list's header goes and, in the header's `size` field,
the `lhsize` of the moment; `listEnd` replaces that snapshot by the payload
written since, string data and the headers closed inside alike, and counts the
new header into `lhsize`. `Calls` is any properly nested sequence of these
calls with bytes appended to the string data between them, as the string
writers and `makeStructWriter` make them.

From any buffer, the calls leave their string data, one header per list in
order of opening, sized by the list's payload in the final output, and the
lengths of those headers in `lhsize` (`runList_eq`). The headers' offsets never
decrease (`pairwise_headsList`), and `toBytes` splices them into exactly the
calls' output (`toBytes_runList`).
-/

namespace FiscoBcos.Rlp

/-- A properly nested sequence of `encbuf` calls: bytes appended to the string
data, and lists opened by `list` and closed by `listEnd` around their
contents. -/
inductive Calls where
  | write (b : List UInt8)
  | list (body : List Calls)

namespace Calls

mutual
/-- The calls on a buffer; a list is `lh := w.list()`, its contents, then
`w.listEnd(lh)`. -/
def run : Calls → Encbuf → Encbuf
  | write b, w => w.append b
  | list body, w => (runList body w.list.1).listEnd w.list.2
/-- A sequence of calls on a buffer. -/
def runList : List Calls → Encbuf → Encbuf
  | [], w => w
  | c :: cs, w => runList cs (run c w)
end

mutual
/-- What the calls put in the final output: the bytes written, and each list's
header before its payload. -/
def out : Calls → List UInt8
  | write b => b
  | list body => header 0xC0 0xF7 (outList body).length ++ outList body
/-- What a sequence of calls puts in the final output. -/
def outList : List Calls → List UInt8
  | [] => []
  | c :: cs => out c ++ outList cs
end

mutual
/-- The string data the calls append. -/
def strData : Calls → List UInt8
  | write b => b
  | list body => strDataList body
/-- The string data a sequence of calls appends. -/
def strDataList : List Calls → List UInt8
  | [] => []
  | c :: cs => strData c ++ strDataList cs
end

mutual
/-- The headers the calls leave when their string data starts at `offset`, in
order of opening: each where its list was opened, sized by the list's payload
in the final output. -/
def heads : Calls → Nat → List Listhead
  | write _, _ => []
  | list body, offset => ⟨offset, (outList body).length⟩ :: headsList body offset
/-- The headers a sequence of calls leaves. -/
def headsList : List Calls → Nat → List Listhead
  | [], _ => []
  | c :: cs, offset => heads c offset ++ headsList cs (offset + (strData c).length)
end

mutual
/-- The header bytes of the calls' lists. -/
def hdrSize : Calls → Nat
  | write _ => 0
  | list body => (header 0xC0 0xF7 (outList body).length).length + hdrSizeList body
/-- The header bytes of the lists of a sequence of calls. -/
def hdrSizeList : List Calls → Nat
  | [] => 0
  | c :: cs => hdrSize c + hdrSizeList cs
end

mutual
theorem length_out : ∀ c : Calls, (out c).length = (strData c).length + hdrSize c
  | write b => by simp [out, strData, hdrSize]
  | list body => by
      have payload := length_outList body
      simp only [out, strData, hdrSize, List.length_append]
      omega
theorem length_outList : ∀ cs : List Calls, (outList cs).length = (strDataList cs).length + hdrSizeList cs
  | [] => rfl
  | c :: cs => by
      have first := length_out c
      have rest := length_outList cs
      simp only [outList, strDataList, hdrSizeList, List.length_append]
      omega
end

theorem length_outList_le_out (body : List Calls) : (outList body).length ≤ (out (list body)).length := by
  simp [out]

/-! ## The buffer after the calls -/

mutual
theorem run_eq : ∀ (c : Calls) (w : Encbuf), (out c).length < 2 ^ 64 →
    run c w = ⟨w.str ++ strData c, w.lheads ++ heads c w.str.length, w.lhsize + hdrSize c⟩
  | write b, w, _ => by simp [run, Encbuf.append, strData, heads, hdrSize]
  | list body, w, bound => by
      have payload : (outList body).length < 2 ^ 64 := Nat.lt_of_le_of_lt (length_outList_le_out body) bound
      have inner := runList_eq body w.list.1 payload
      have sizes := length_outList body
      simp only [Encbuf.list] at inner
      simp only [run, Encbuf.list, inner, List.append_assoc, List.singleton_append]
      -- `listEnd` finds the payload: everything written since `list`
      rw [Encbuf.listEnd_opened _ _ _ _ _ _ (by simp only [List.length_append]; omega)]
      simp only [List.length_append, strData, heads, hdrSize, Nat.add_assoc]
      have written : w.str.length + ((strDataList body).length + (w.lhsize + hdrSizeList body)) -
          w.str.length - w.lhsize = (outList body).length := by omega
      rw [written, Nat.add_comm (hdrSizeList body)]
theorem runList_eq : ∀ (cs : List Calls) (w : Encbuf), (outList cs).length < 2 ^ 64 →
    runList cs w = ⟨w.str ++ strDataList cs, w.lheads ++ headsList cs w.str.length, w.lhsize + hdrSizeList cs⟩
  | [], w, _ => by simp [runList, strDataList, headsList, hdrSizeList]
  | c :: cs, w, bound => by
      have lengths : (outList (c :: cs)).length = (out c).length + (outList cs).length := by
        simp [outList]
      rw [runList, run_eq c w (by omega), runList_eq cs _ (by omega)]
      simp [strDataList, headsList, hdrSizeList, List.append_assoc, Nat.add_assoc]
end

/-! ## The recorded headers -/

mutual
theorem offset_mem_heads :
    ∀ (c : Calls) (offset : Nat), ∀ head ∈ heads c offset,
      offset ≤ head.offset ∧ head.offset ≤ offset + (strData c).length
  | write _, _ => by simp [heads]
  | list body, offset => by
      intro head mem
      simp only [heads, List.mem_cons] at mem
      rcases mem with rfl | inner
      · exact ⟨Nat.le_refl _, Nat.le_add_right _ _⟩
      · exact offset_mem_headsList body offset head inner
theorem offset_mem_headsList :
    ∀ (cs : List Calls) (offset : Nat), ∀ head ∈ headsList cs offset,
      offset ≤ head.offset ∧ head.offset ≤ offset + (strDataList cs).length
  | [], _ => by simp [headsList]
  | c :: cs, offset => by
      intro head mem
      simp only [headsList, List.mem_append] at mem
      simp only [strDataList, List.length_append]
      rcases mem with first | rest
      · have := offset_mem_heads c offset head first
        omega
      · have := offset_mem_headsList cs _ head rest
        omega
end

mutual
/-- A list's header comes before the headers of the lists inside it, and the
offsets never decrease. -/
theorem pairwise_heads : ∀ (c : Calls) (offset : Nat), (heads c offset).Pairwise fun a b => a.offset ≤ b.offset
  | write _, _ => List.Pairwise.nil
  | list body, offset =>
      List.pairwise_cons.mpr ⟨fun head mem => (offset_mem_headsList body offset head mem).1,
        pairwise_headsList body offset⟩
theorem pairwise_headsList :
    ∀ (cs : List Calls) (offset : Nat), (headsList cs offset).Pairwise fun a b => a.offset ≤ b.offset
  | [], _ => List.Pairwise.nil
  | c :: cs, offset =>
      List.pairwise_append.mpr ⟨pairwise_heads c offset, pairwise_headsList cs _, fun a first b rest =>
        Nat.le_trans (offset_mem_heads c offset a first).2 (offset_mem_headsList cs _ b rest).1⟩
end

mutual
/-- Every recorded header, encoded, stands in the output before exactly its
list's payload. -/
theorem heads_encode_infix : ∀ (c : Calls) (offset : Nat), (out c).length < 2 ^ 64 →
    ∀ head ∈ heads c offset, ∃ body, head.size = (outList body).length ∧ head.encode ++ outList body <:+: out c
  | write _, _, _ => by simp [heads]
  | list body, offset, bound => by
      have payload : (outList body).length < 2 ^ 64 := Nat.lt_of_le_of_lt (length_outList_le_out body) bound
      intro head mem
      simp only [heads, List.mem_cons] at mem
      rcases mem with rfl | inner
      · refine ⟨body, rfl, ?_⟩
        rw [Listhead.encode_eq _ payload]
        exact List.infix_refl _
      · obtain ⟨body', size, within⟩ := headsList_encode_infix body offset payload head inner
        exact ⟨body', size, within.trans (by rw [out]; exact (List.suffix_append _ _).isInfix)⟩
theorem headsList_encode_infix : ∀ (cs : List Calls) (offset : Nat), (outList cs).length < 2 ^ 64 →
    ∀ head ∈ headsList cs offset, ∃ body, head.size = (outList body).length ∧ head.encode ++ outList body <:+: outList cs
  | [], _, _ => by simp [headsList]
  | c :: cs, offset, bound => by
      have lengths : (outList (c :: cs)).length = (out c).length + (outList cs).length := by
        simp [outList]
      intro head mem
      simp only [headsList, List.mem_append] at mem
      rcases mem with first | rest
      · obtain ⟨body, size, within⟩ := heads_encode_infix c offset (by omega) head first
        exact ⟨body, size, within.trans (by rw [outList]; exact (List.prefix_append _ _).isInfix)⟩
      · obtain ⟨body, size, within⟩ := headsList_encode_infix cs _ (by omega) head rest
        exact ⟨body, size, within.trans (by rw [outList]; exact (List.suffix_append _ _).isInfix)⟩
end

mutual
/-- `lhsize` counts the encoded length of every recorded header. -/
theorem hdrSize_eq_sum : ∀ (c : Calls) (offset : Nat), (out c).length < 2 ^ 64 →
    hdrSize c = ((heads c offset).map fun head => head.encode.length).sum
  | write _, _, _ => rfl
  | list body, offset, bound => by
      have payload : (outList body).length < 2 ^ 64 := Nat.lt_of_le_of_lt (length_outList_le_out body) bound
      simp only [hdrSize, heads, List.map_cons, List.sum_cons, Listhead.encode_eq ⟨offset, _⟩ payload,
        hdrSizeList_eq_sum body offset payload]
theorem hdrSizeList_eq_sum : ∀ (cs : List Calls) (offset : Nat), (outList cs).length < 2 ^ 64 →
    hdrSizeList cs = ((headsList cs offset).map fun head => head.encode.length).sum
  | [], _, _ => rfl
  | c :: cs, offset, bound => by
      have lengths : (outList (c :: cs)).length = (out c).length + (outList cs).length := by
        simp [outList]
      simp only [hdrSizeList, headsList, List.map_append, List.sum_append,
        hdrSize_eq_sum c offset (by omega), hdrSizeList_eq_sum cs (offset + (strData c).length) (by omega)]
end

/-! ## The final output -/

mutual
/-- The headers of the calls, spliced into their string data, give their
output; splicing then continues after them. -/
theorem splice_heads : ∀ (c : Calls) (str : List UInt8) (offset : Nat) (rest : List Listhead),
    (out c).length < 2 ^ 64 →
    (str.drop offset).take (strData c).length = strData c →
    (∀ head ∈ rest, offset + (strData c).length ≤ head.offset) →
    splice str (heads c offset ++ rest) offset = out c ++ splice str rest (offset + (strData c).length)
  | write b, str, offset, rest, _, data, after => by
      rw [heads, List.nil_append, splice_advance str rest (Nat.le_add_right offset _) after,
        Nat.add_sub_cancel_left, data]
      rfl
  | list body, str, offset, rest, bound, data, after => by
      have payload : (outList body).length < 2 ^ 64 := Nat.lt_of_le_of_lt (length_outList_le_out body) bound
      have inner := splice_headsList body str offset rest payload data after
      simp only [heads, List.cons_append, splice, Nat.sub_self, List.take_zero, List.nil_append, strData]
        at inner ⊢
      rw [inner, Listhead.encode_eq _ payload, out, List.append_assoc]
theorem splice_headsList : ∀ (cs : List Calls) (str : List UInt8) (offset : Nat) (rest : List Listhead),
    (outList cs).length < 2 ^ 64 →
    (str.drop offset).take (strDataList cs).length = strDataList cs →
    (∀ head ∈ rest, offset + (strDataList cs).length ≤ head.offset) →
    splice str (headsList cs offset ++ rest) offset = outList cs ++ splice str rest (offset + (strDataList cs).length)
  | [], str, offset, rest, _, _, _ => by
      simp [headsList, outList, strDataList]
  | c :: cs, str, offset, rest, bound, data, after => by
      have lengths : (outList (c :: cs)).length = (out c).length + (outList cs).length := by
        simp [outList]
      obtain ⟨first, second⟩ := take_drop_append (a := strData c) (b := strDataList cs) data
      -- the headers of the later calls, and those after them, sit past the first call's data
      have later : ∀ head ∈ headsList cs (offset + (strData c).length) ++ rest,
          offset + (strData c).length ≤ head.offset := by
        intro head mem
        rcases List.mem_append.mp mem with inner | outer
        · exact (offset_mem_headsList cs _ head inner).1
        · have := after head outer
          simp only [strDataList, List.length_append] at this
          omega
      have restAfter : ∀ head ∈ rest,
          offset + (strData c).length + (strDataList cs).length ≤ head.offset := by
        intro head mem
        have := after head mem
        simp only [strDataList, List.length_append] at this
        omega
      rw [headsList, List.append_assoc, splice_heads c str offset _ (by omega) first later,
        splice_headsList cs str _ rest (by omega) second restAfter]
      simp [outList, strDataList, Nat.add_assoc]
end

theorem toBytes_runList (cs : List Calls) (bound : (outList cs).length < 2 ^ 64) :
    (runList cs Encbuf.empty).toBytes = outList cs := by
  have spliced := splice_headsList cs (strDataList cs) 0 [] bound (by simp) (by simp)
  simp only [List.append_nil, splice, Nat.zero_add, List.drop_length] at spliced
  rw [runList_eq cs Encbuf.empty bound, Encbuf.toBytes_eq_splice]
  simpa [Encbuf.empty] using spliced

/-- `encbuf`'s list-header bookkeeping over any properly nested sequence of
calls. Run from any buffer, the calls append their string data and leave one
header per list, in order of opening; each header's `size` is its list's
payload, and its encoding stands in the final output right before that
payload. `lhsize` grows by the encoded lengths of those headers, and their
offsets never decrease, a list's header coming before those of the lists
inside it. From an empty buffer, `toBytes` gives the calls' output. -/
theorem listEnd_records_payload (cs : List Calls) (w : Encbuf) (bound : (outList cs).length < 2 ^ 64) :
    (runList cs w).str = w.str ++ strDataList cs ∧
      (runList cs w).lheads = w.lheads ++ headsList cs w.str.length ∧
      (∀ head ∈ headsList cs w.str.length,
        ∃ body, head.size = (outList body).length ∧ head.encode ++ outList body <:+: outList cs) ∧
      (runList cs w).lhsize = w.lhsize + ((headsList cs w.str.length).map fun head => head.encode.length).sum ∧
      (headsList cs w.str.length).Pairwise (fun a b => a.offset ≤ b.offset) ∧
      (runList cs Encbuf.empty).toBytes = outList cs := by
  have run := runList_eq cs w bound
  refine ⟨by rw [run], by rw [run], headsList_encode_infix cs _ bound, ?_, pairwise_headsList cs _,
    toBytes_runList cs bound⟩
  rw [run, hdrSizeList_eq_sum cs w.str.length bound]

theorem listEnd_records_payload_nested :
    (runList [.list [.write [1], .list [.write [2, 3]]]] Encbuf.empty).toBytes = [0xC4, 1, 0xC2, 2, 3] :=
  (listEnd_records_payload [.list [.write [1], .list [.write [2, 3]]]] Encbuf.empty (by decide)).2.2.2.2.2

end Calls

end FiscoBcos.Rlp
