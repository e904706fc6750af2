import FiscoBcos.Rlp.Decoder
import FiscoBcos.Rlp.StreamSpec
import Mathlib

/-!
# The bookkeeping of the stream

`Stream` keeps the counts that bound what it may read: the input limit
`remaining`, and for each open list the bytes read of it and its size. The
source subtracts them as `uint64`s (`tos.size - tos.pos` in `Kind` and
`willRead`), where one position past its size would turn every later check
off. No run of the stream gets there.

`Move` says once what an operation can do to those counts: re-arm `Kind`,
write the fields `Kind` has not cached, read bytes there is room for, charge
a list whose limit check then fails, cache a header that passed the size
check, enter the list `Kind` cached, or leave a list read to its end.
`Bounded` is the invariant. `Reset` and `NewListStream` establish it, every
move keeps it (`Bounded.move`), and each operation of the stream and each
decoder is a sequence of moves (the `..._reaches` lemmas).

From the invariant: an open list has `pos ≤ size`, a list lies within the
free space of the list around it, the bytes read never pass the limit, and
when the limit is the length of the input, as in `DecodeBytes`, a size that
`Kind` reports is at most the input left (`Kind_size_le_r`).
-/

namespace FiscoBcos.Rlp

namespace Stream

/-- The bytes still to read to close every open list, innermost first.
`inner` is the size of the list inside, which `ListEnd` charges to its
parent only when it closes. -/
def need : Nat → List Listpos → Nat
  | _, [] => 0
  | inner, tos :: outer => tos.size - (tos.pos + inner) + need tos.size outer

/-- A list lies within the free space of the list around it. -/
def Nested (inner outer : Listpos) : Prop := outer.pos + inner.size ≤ outer.size

/-- The invariant of a stream over `input` whose limit started at `limit`. -/
structure Bounded (input : List UInt8) (limit : Nat) (s : Stream) : Prop where
  limited : s.limited = true
  suffix : s.r <:+ input
  /-- The bytes read and the limit left together stay within the limit. -/
  within : input.length - s.r.length + s.remaining ≤ limit
  frames : ∀ f ∈ s.stack, f.pos ≤ f.size
  nested : s.stack.IsChain Nested
  /-- Closing every open list takes no more than the limit left. -/
  need : need 0 s.stack ≤ s.remaining
  /-- A header `Kind` cached without an error passed its size check. -/
  cached : ∀ k, s.kind = some k → s.kinderr = none → s.sizeErr s.size = none

/-- What one operation can do to the stream's counts. -/
inductive Move : Stream → Stream → Prop
  /-- Re-arm `Kind`. -/
  | rearm (s : Stream) : Move s { s with kind := none }
  /-- The fields that matter only once `Kind` has cached a header. -/
  | scratch {s : Stream} (armed : s.kind = none) (size : Nat) (byteval : UInt8)
      (kinderr : Option Error) :
      Move s { s with size := size, byteval := byteval, kinderr := kinderr }
  /-- `willRead n` passed, and the reader handed out at most `n` bytes. -/
  | read {s : Stream} {n : Nat} {bytes r : List UInt8} (room : s.Room n) (hr : s.r = bytes ++ r)
      (le : bytes.length ≤ n) : Move s { s.charge n with r := r }
  /-- `willRead n` charged the innermost list, then failed the limit check. -/
  | overLimit {s : Stream} {n : Nat} {tos : Listpos} {outer : List Listpos}
      (hst : s.stack = tos :: outer) (room : n ≤ tos.size - tos.pos) :
      Move s { s with kind := none, stack := { tos with pos := tos.pos + n } :: outer }
  /-- `Kind` caches a header; a header without an error passed `sizeErr`. -/
  | cache {s : Stream} (k : Kind) (n : Nat) (err : Option Error)
      (fits : err = none → s.sizeErr n = none) :
      Move s { s with kind := some k, size := n, kinderr := err }
  /-- `List` enters the list `Kind` cached. -/
  | push {s : Stream} (hk : s.kind = some .list) (he : s.kinderr = none) :
      Move s { s with stack := ⟨0, s.size⟩ :: s.stack, kind := none, size := 0 }
  /-- `ListEnd` leaves a list read to its end and charges it to its parent. -/
  | pop {s : Stream} {tos : Listpos} {outer : List Listpos} (hst : s.stack = tos :: outer)
      (at_end : tos.pos = tos.size) :
      Move s { s with stack := bump outer tos.size, kind := none, size := 0 }

/-- A sequence of moves. -/
def Reaches : Stream → Stream → Prop := Relation.ReflTransGen Move

theorem Reaches.refl (s : Stream) : Reaches s s := Relation.ReflTransGen.refl

theorem Reaches.trans {s1 s2 s3 : Stream} (first : Reaches s1 s2) (second : Reaches s2 s3) :
    Reaches s1 s3 :=
  Relation.ReflTransGen.trans first second

theorem Move.reaches {s s' : Stream} (m : Move s s') : Reaches s s' :=
  Relation.ReflTransGen.single m

/-! ## The counts under each move -/

/-- Charging `n` bytes to the innermost list lowers the need by `n`. -/
theorem need_bump (tos : Listpos) (outer : List Listpos) {n : Nat}
    (le : n ≤ tos.size - tos.pos) : need 0 (bump (tos :: outer) n) + n = need 0 (tos :: outer) := by
  simp only [bump, need]
  omega

/-- A list that fits in its parent's free space adds nothing to the need. -/
theorem need_push {tos : Listpos} {outer : List Listpos} {size : Nat}
    (fits : size ≤ tos.size - tos.pos) :
    need 0 (⟨0, size⟩ :: tos :: outer) = need 0 (tos :: outer) := by
  simp only [need]
  omega

/-- Leaving a finished list moves its size from the need of the list to the
position of its parent. -/
theorem need_pop {tos : Listpos} {outer : List Listpos} (at_end : tos.pos = tos.size) :
    need 0 (bump outer tos.size) = need 0 (tos :: outer) := by
  cases outer with
  | nil => simp [bump, need, at_end]
  | cons parent rest =>
    simp only [bump, need]
    omega

theorem isChain_bump {stack : List Listpos} (n : Nat) (chain : stack.IsChain Nested) :
    (bump stack n).IsChain Nested := by
  match stack, chain with
  | [], _ => exact List.IsChain.nil
  | [_], _ => exact List.isChain_singleton _
  | _ :: _ :: _, chain =>
    rw [List.isChain_cons_cons] at chain
    exact List.isChain_cons_cons.mpr ⟨chain.1, chain.2⟩

theorem frames_bump {stack : List Listpos} {n : Nat} (frames : ∀ f ∈ stack, f.pos ≤ f.size)
    (list : ∀ tos outer, stack = tos :: outer → n ≤ tos.size - tos.pos) :
    ∀ f ∈ bump stack n, f.pos ≤ f.size := by
  match stack, frames, list with
  | [], _, _ => simp [bump]
  | tos :: outer, frames, list =>
    have room := list tos outer rfl
    have pos := frames tos (List.mem_cons_self ..)
    intro f mem
    rcases List.mem_cons.mp mem with rfl | later
    · simp only
      omega
    · exact frames f (List.mem_cons_of_mem _ later)

/-- With a limit, `sizeErr` passes a size exactly when it fits the free space
of the innermost list, or the limit at top level. -/
theorem sizeErr_eq_none {s : Stream} {n : Nat} (limited : s.limited = true) :
    s.sizeErr n = none ↔ n ≤ (match s.stack with
      | [] => s.remaining
      | tos :: _ => tos.size - tos.pos) := by
  unfold sizeErr
  cases s.stack with
  | nil => simp [limited]
  | cons tos outer => simp

variable {input : List UInt8} {limit : Nat}

/-- Every move keeps the invariant. -/
theorem Bounded.move {s s' : Stream} (b : Bounded input limit s) (m : Move s s') :
    Bounded input limit s' := by
  cases m with
  | rearm => exact ⟨b.limited, b.suffix, b.within, b.frames, b.nested, b.need, fun k hk => by cases hk⟩
  | scratch armed =>
    exact ⟨b.limited, b.suffix, b.within, b.frames, b.nested, b.need,
      fun k hk => by simp [armed] at hk⟩
  | @read n bytes r room hr le =>
    have limitRoom := room.limit b.limited
    have lengths : s.r.length = bytes.length + r.length := by simp [hr]
    have inInput := b.suffix.length_le
    have within := b.within
    refine ⟨b.limited, (List.suffix_append bytes r).trans (hr ▸ b.suffix), ?_,
      frames_bump b.frames room.list, isChain_bump n b.nested, ?_, fun k hk => by cases hk⟩
    · simp only [charge, b.limited, if_true]
      omega
    · have needs := b.need
      simp only [charge, b.limited, if_true]
      cases hst : s.stack with
      | nil => simp [bump, Stream.need]
      | cons tos outer =>
        have fits := need_bump tos outer (room.list tos outer hst)
        rw [hst] at needs
        omega
  | @overLimit n tos outer hst room =>
    have frames := b.frames
    have nested := b.nested
    have needs := b.need
    rw [hst] at frames nested needs
    have fits := need_bump tos outer room
    refine ⟨b.limited, b.suffix, b.within, frames_bump frames (fun _ _ h => by cases h; exact room),
      isChain_bump n nested, ?_, fun k hk => by cases hk⟩
    simp only [bump] at fits ⊢
    omega
  | cache k n err fits =>
    refine ⟨b.limited, b.suffix, b.within, b.frames, b.nested, b.need, fun k' hk he => ?_⟩
    exact fits he
  | push hk he =>
    have cached := (sizeErr_eq_none b.limited).mp (b.cached .list hk he)
    have need := b.need
    cases hst : s.stack with
    | nil =>
      rw [hst] at cached
      refine ⟨b.limited, b.suffix, b.within, ?_, List.isChain_singleton _, ?_, fun k hk => by cases hk⟩
      · simp
      · simp only [Stream.need]
        omega
    | cons tos outer =>
      rw [hst] at cached need
      dsimp only at cached
      have frames := b.frames
      have nested := b.nested
      rw [hst] at frames nested
      have pos := frames tos (List.mem_cons_self ..)
      refine ⟨b.limited, b.suffix, b.within, ?_, ?_, ?_, fun k hk => by cases hk⟩
      · intro f mem
        rcases List.mem_cons.mp mem with rfl | later
        · exact Nat.zero_le _
        · exact frames f later
      · exact List.isChain_cons_cons.mpr ⟨by simp only [Nested]; omega, nested⟩
      · simp only
        rw [need_push cached]
        exact need
  | @pop tos outer hst at_end =>
    have frames := b.frames
    have nested := b.nested
    have need := b.need
    rw [hst] at frames nested need
    refine ⟨b.limited, b.suffix, b.within, ?_, isChain_bump tos.size nested.tail, ?_,
      fun k hk => by cases hk⟩
    · cases outer with
      | nil => simp [bump]
      | cons parent rest =>
        have fits : parent.pos + tos.size ≤ parent.size := (List.isChain_cons_cons.mp nested).1
        intro f mem
        rcases List.mem_cons.mp mem with rfl | later
        · exact fits
        · exact frames f (List.mem_cons_of_mem _ (List.mem_cons_of_mem _ later))
    · simp only
      rw [need_pop at_end]
      exact need

/-- Every sequence of moves keeps the invariant. -/
theorem Bounded.reaches {s s' : Stream} (b : Bounded input limit s) (h : Reaches s s') :
    Bounded input limit s' := by
  induction h with
  | refl => exact b
  | tail _ m ih => exact ih.move m

/-! ## The starting streams -/

theorem bounded_reset (input : List UInt8) (inputLimit : Nat) :
    Bounded input (reset input inputLimit).remaining (reset input inputLimit) where
  limited := rfl
  suffix := List.suffix_refl input
  within := by simp [reset]
  frames := by simp [reset]
  nested := List.IsChain.nil
  need := by simp [reset, Stream.need]
  cached k hk := by simp [reset] at hk

/-- `NewListStream` caches a list header that fits the limit it sets. -/
theorem bounded_newListStream (input : List UInt8) (len : Nat) :
    Bounded input (newListStream input len).remaining (newListStream input len) where
  limited := rfl
  suffix := List.suffix_refl input
  within := by simp [newListStream, reset]
  frames := by simp [newListStream, reset]
  nested := List.IsChain.nil
  need := by simp [newListStream, reset, Stream.need]
  cached k hk he := by
    have fits : ¬len > (if len > 0 then len else input.length) := by split_ifs <;> omega
    simp [newListStream, reset, sizeErr, fits]

/-! ## The operations as moves -/

theorem reaches_of_eq {α : Type} {s s' : Stream} {x : α × Stream} {a : α} (h : Reaches s x.2)
    (hx : x = (a, s')) : Reaches s s' :=
  by subst hx; exact h

/-- A failed `willRead` re-arms `Kind`, or charges the innermost list before
the limit check fails. -/
theorem willRead_error {s s1 : Stream} {n : Nat} {e : Error} (h : s.willRead n = (some e, s1)) :
    Move s s1 := by
  unfold willRead takeRemaining at h
  cases hst : s.stack with
  | nil =>
    have armed := Move.rearm s
    rw [hst] at armed
    simp only [hst] at h
    split_ifs at h
    · cases h
      exact armed
    · cases h
    · cases h
  | cons tos outer =>
    have armed := Move.rearm s
    rw [hst] at armed
    simp only [hst] at h
    split_ifs at h with tooBig
    · cases h
      exact armed
    · cases h
      exact .overLimit hst (by omega)
    · cases h
    · cases h

theorem readByte_reaches (s : Stream) : Reaches s s.readByte.2 := by
  unfold readByte
  split
  · next s1 hw => exact (willRead_error hw).reaches
  · next s1 hw =>
    obtain ⟨room, rfl⟩ := Iff.mp willRead_eq_none_iff hw
    split
    · exact (Move.read room (show s.r = [] ++ s.r from rfl) (Nat.zero_le 1)).reaches
    · next b rest hr =>
      exact (Move.read room (show s.r = [b] ++ rest from hr) le_rfl).reaches

/-- `readFull` reads what it has room for, or up to the end of the input. -/
theorem readFull_reaches (s : Stream) (n : Nat) : Reaches s (s.readFull n).2 := by
  unfold readFull
  split
  · next s1 hw => exact (willRead_error hw).reaches
  · next s1 hw =>
    obtain ⟨room, rfl⟩ := Iff.mp willRead_eq_none_iff hw
    split
    · next enough =>
      have taken : (s.r.take n).length ≤ n := List.length_take_le n s.r
      exact (Move.read room (List.take_append_drop n s.r).symm taken).reaches
    · next short =>
      exact (Move.read room (List.append_nil s.r).symm (by simp at short; omega)).reaches

theorem readUint_reaches (s : Stream) (size : Nat) : Reaches s (s.readUint size).2 := by
  unfold readUint
  split
  · exact (Move.rearm s).reaches
  · split <;> next heq => exact reaches_of_eq (readByte_reaches s) heq
  · split
    · next heq => exact reaches_of_eq (readFull_reaches s _) heq
    · next heq =>
      have read := reaches_of_eq (readFull_reaches s _) heq
      split <;> exact read

/-- After a successful `readByte`, `Kind` is armed. -/
theorem readByte_armed {s s1 : Stream} {b : UInt8} (h : s.readByte = (.ok b, s1)) :
    s1.kind = none := by
  obtain ⟨-, rest, -, rfl⟩ := Iff.mp readByte_eq_ok_iff h
  rfl

theorem readKind_reaches (s : Stream) : Reaches s s.readKind.2 := by
  unfold readKind
  split
  · next heq => exact reaches_of_eq (readByte_reaches s) heq
  · next b s1 heq =>
    have read := reaches_of_eq (readByte_reaches s) heq
    have armed := readByte_armed heq
    -- `byteval` is reset before the tag is looked at
    have reset : Reaches s { s1 with byteval := 0 } :=
      read.trans (Move.scratch armed s1.size 0 s1.kinderr).reaches
    split
    · exact read.trans (Move.scratch armed s1.size b s1.kinderr).reaches
    · split
      · exact reset
      · split
        · dsimp only
          split <;> next heq => exact reset.trans (reaches_of_eq (readUint_reaches _ _) heq)
        · split
          · exact reset
          · dsimp only
            split <;> next heq => exact reset.trans (reaches_of_eq (readUint_reaches _ _) heq)

theorem readKindChecked_reaches (s : Stream) : Reaches s s.readKindChecked.2 := by
  unfold readKindChecked
  rcases hr : s.readKind with ⟨⟨k, n, err⟩, s1⟩
  have read := reaches_of_eq (readKind_reaches s) hr
  refine read.trans (Move.cache k n _ fun none_err => ?_).reaches
  simp only [Option.orElse_eq_none] at none_err
  exact none_err.2

theorem Kind_reaches (s : Stream) : Reaches s s.Kind.2 := by
  unfold Stream.Kind
  split
  · exact Reaches.refl s
  · next armed =>
    -- `kinderr` is cleared before the header is read
    have clear : Reaches s { s with kinderr := none } :=
      (Move.scratch armed s.size s.byteval none).reaches
    dsimp only
    split
    · split
      · exact clear
      · exact clear.trans (readKindChecked_reaches _)
    · exact clear.trans (readKindChecked_reaches _)

protected theorem Bytes_reaches (s : Stream) : Reaches s s.Bytes.2 := by
  unfold Stream.Bytes
  split
  · next heq => exact reaches_of_eq (Kind_reaches s) heq
  · next heq => exact (reaches_of_eq (Kind_reaches s) heq).trans (Move.rearm _).reaches
  · next heq =>
    have kind := reaches_of_eq (Kind_reaches s) heq
    split
    · next heq' => exact kind.trans (reaches_of_eq (readFull_reaches _ _) heq')
    · next heq' =>
      have read := kind.trans (reaches_of_eq (readFull_reaches _ _) heq')
      split <;> exact read
  · next heq => exact reaches_of_eq (Kind_reaches s) heq

theorem uint_reaches (s : Stream) (maxbits : Nat) : Reaches s (s.uint maxbits).2 := by
  unfold uint
  split
  · next heq => exact reaches_of_eq (Kind_reaches s) heq
  · next heq =>
    have kind := reaches_of_eq (Kind_reaches s) heq
    split
    · exact kind
    · exact kind.trans (Move.rearm _).reaches
  · next heq =>
    have kind := reaches_of_eq (Kind_reaches s) heq
    split
    · exact kind
    · split
      · next heq' => exact kind.trans (reaches_of_eq (readUint_reaches _ _) heq')
      · next heq' => exact kind.trans (reaches_of_eq (readUint_reaches _ _) heq')
      · next heq' =>
        have read := kind.trans (reaches_of_eq (readUint_reaches _ _) heq')
        split <;> exact read
  · next heq => exact reaches_of_eq (Kind_reaches s) heq

protected theorem Uint_reaches (s : Stream) : Reaches s s.Uint.2 := uint_reaches s 64

protected theorem Bool_reaches (s : Stream) : Reaches s s.Bool.2 := by
  unfold Stream.Bool
  split <;> next heq => exact reaches_of_eq (uint_reaches s 8) heq

protected theorem List_reaches (s : Stream) : Reaches s s.List.2 := by
  unfold Stream.List
  split
  · next heq => exact reaches_of_eq (Kind_reaches s) heq
  · next size s1 heq =>
    obtain ⟨hk, hn, he⟩ := Kind_caches heq
    have push := Move.push hk he
    rw [hn] at push
    exact (reaches_of_eq (Kind_reaches s) heq).trans push.reaches
  · next heq => exact reaches_of_eq (Kind_reaches s) heq

protected theorem ListEnd_reaches (s : Stream) : Reaches s s.ListEnd.2 := by
  rcases h : s.ListEnd with ⟨_ | e, s1⟩
  · obtain ⟨tos, outer, hst, at_end, rfl⟩ := Iff.mp ListEnd_eq_none_iff h
    exact (Move.pop hst at_end).reaches
  · -- both refusals leave the stream as it was
    unfold Stream.ListEnd at h
    split at h
    · cases h
      exact Reaches.refl s
    · split_ifs at h
      · cases h
        exact Reaches.refl s
      · dsimp only at h
        cases h

protected theorem Raw_reaches (s : Stream) : Reaches s s.Raw.2 := by
  unfold Stream.Raw
  split
  · next heq => exact reaches_of_eq (Kind_reaches s) heq
  · next heq => exact (reaches_of_eq (Kind_reaches s) heq).trans (Move.rearm _).reaches
  · next heq =>
    have kind := reaches_of_eq (Kind_reaches s) heq
    split
    · next heq' => exact kind.trans (reaches_of_eq (readFull_reaches _ _) heq')
    · next heq' =>
      have read := kind.trans (reaches_of_eq (readFull_reaches _ _) heq')
      split <;> exact read

end Stream

/-! ## The decoders as moves -/

open FiscoBcos.Rlp.Stream

/-- A decoder changes the stream by moves only. -/
def ByMoves {α : Type} (dec : Dec α) : Prop := ∀ s, Reaches s (dec s).2

section Loops

variable {α : Type} {elemdec : Dec α}

theorem decodeSliceElems_moves (elem : ByMoves elemdec) :
    ∀ rounds, ByMoves (decodeSliceElems elemdec rounds)
  | 0, s => Reaches.refl s
  | rounds + 1, s => by
    rw [decodeSliceElems]
    split
    · next heq => exact reaches_of_eq (elem s) heq
    · next heq => exact reaches_of_eq (elem s) heq
    · next heq =>
      have first := reaches_of_eq (elem s) heq
      split <;> next heq' =>
        exact first.trans (reaches_of_eq (decodeSliceElems_moves elem rounds _) heq')

/-- A list is entered, decoded and left by moves. -/
theorem decodeListSlice_moves (elem : ByMoves elemdec) : ByMoves (decodeListSlice elemdec) := by
  intro s
  unfold decodeListSlice
  split
  · next heq => exact reaches_of_eq (Stream.List_reaches s) heq
  · next heq =>
    have entered := reaches_of_eq (Stream.List_reaches s) heq
    split <;> next heq' => exact entered.trans (reaches_of_eq (Stream.ListEnd_reaches _) heq')
  · next heq =>
    have entered := reaches_of_eq (Stream.List_reaches s) heq
    split
    · next heq' => exact entered.trans (reaches_of_eq (decodeSliceElems_moves elem _ _) heq')
    · next heq' =>
      have elems := entered.trans (reaches_of_eq (decodeSliceElems_moves elem _ _) heq')
      split <;> next heq'' => exact elems.trans (reaches_of_eq (Stream.ListEnd_reaches _) heq'')

theorem decodeArrayElems_moves (elem : ByMoves elemdec) :
    ∀ vlen, ByMoves (decodeArrayElems elemdec vlen)
  | 0, s => Reaches.refl s
  | vlen + 1, s => by
    rw [decodeArrayElems]
    split
    · next heq => exact reaches_of_eq (elem s) heq
    · next heq => exact reaches_of_eq (elem s) heq
    · next heq =>
      have first := reaches_of_eq (elem s) heq
      split <;> next heq' =>
        exact first.trans (reaches_of_eq (decodeArrayElems_moves elem vlen _) heq')

theorem decodeListArray_moves (elem : ByMoves elemdec) (vlen : Nat) :
    ByMoves (decodeListArray vlen elemdec) := by
  intro s
  unfold decodeListArray
  split
  · next heq => exact reaches_of_eq (Stream.List_reaches s) heq
  · next heq =>
    have entered := reaches_of_eq (Stream.List_reaches s) heq
    split
    · next heq' => exact entered.trans (reaches_of_eq (decodeArrayElems_moves elem _ _) heq')
    · next heq' =>
      have elems := entered.trans (reaches_of_eq (decodeArrayElems_moves elem _ _) heq')
      split
      · exact elems
      · split <;> next heq'' => exact elems.trans (reaches_of_eq (Stream.ListEnd_reaches _) heq'')

end Loops

theorem decodeUint_moves (bits : Nat) : ByMoves (decodeUint bits) := by
  intro s
  unfold decodeUint
  split <;> next heq => exact reaches_of_eq (uint_reaches s bits) heq

theorem decodeBool_moves : ByMoves decodeBool := by
  intro s
  unfold decodeBool
  split <;> next heq => exact reaches_of_eq (Stream.Bool_reaches s) heq

theorem decodeString_moves : ByMoves decodeString := by
  intro s
  unfold decodeString
  split <;> next heq => exact reaches_of_eq (Stream.Bytes_reaches s) heq

theorem decodeBigInt_moves : ByMoves decodeBigInt := by
  intro s
  unfold decodeBigInt
  split
  · next heq => exact reaches_of_eq (Stream.Bytes_reaches s) heq
  · next heq =>
    have read := reaches_of_eq (Stream.Bytes_reaches s) heq
    split <;> exact read

theorem decodeByteSlice_moves : ByMoves decodeByteSlice := by
  intro s
  unfold decodeByteSlice
  split <;> next heq => exact reaches_of_eq (Stream.Bytes_reaches s) heq

theorem decodeByteArray_moves (vlen : Nat) : ByMoves (decodeByteArray vlen) := by
  intro s
  unfold decodeByteArray
  split
  · next heq => exact reaches_of_eq (Kind_reaches s) heq
  · next heq =>
    have kind := reaches_of_eq (Kind_reaches s) heq
    split
    · exact kind
    · split
      · exact kind
      · exact kind.trans (Stream.Uint_reaches _)
  · next heq =>
    have kind := reaches_of_eq (Kind_reaches s) heq
    split
    · exact kind
    · split
      · exact kind
      · split
        · next heq' => exact kind.trans (reaches_of_eq (readFull_reaches _ _) heq')
        · next heq' =>
          have read := kind.trans (reaches_of_eq (readFull_reaches _ _) heq')
          split <;> exact read
  · next heq => exact reaches_of_eq (Kind_reaches s) heq

theorem decodeInterface_moves : ∀ depth, ByMoves (decodeInterface depth)
  | 0, s => Reaches.refl s
  | depth + 1, s => by
    rw [decodeInterface]
    split
    · next heq => exact reaches_of_eq (Kind_reaches s) heq
    · next heq =>
      have kind := reaches_of_eq (Kind_reaches s) heq
      split <;> next heq' =>
        exact kind.trans (reaches_of_eq (decodeListSlice_moves (decodeInterface_moves depth) _) heq')
    · next heq =>
      have kind := reaches_of_eq (Kind_reaches s) heq
      split <;> next heq' => exact kind.trans (reaches_of_eq (Stream.Bytes_reaches _) heq')

theorem decodePtr_moves {elemdec : Dec GoValue} (elem : ByMoves elemdec) :
    ByMoves (decodePtr elemdec) := by
  intro s
  unfold decodePtr
  split <;> next heq => exact reaches_of_eq (elem s) heq

theorem decodeOptionalPtr_moves {elemdec : Dec GoValue} (elem : ByMoves elemdec) :
    ByMoves (decodeOptionalPtr elemdec) := by
  intro s
  unfold decodeOptionalPtr
  split
  · next heq => exact (reaches_of_eq (Kind_reaches s) heq).trans (Move.rearm _).reaches
  · next heq =>
    have kind := reaches_of_eq (Kind_reaches s) heq
    split
    · exact kind.trans (Move.rearm _).reaches
    · exact kind.trans (decodePtr_moves elem _)

mutual
/-- Every typed decoder changes the stream by moves only. -/
theorem decodeValue_moves : ∀ (ty : GoType) (ts : Tags), ByMoves (decodeValue ty ts)
  | .uint bits, _, s => decodeUint_moves bits s
  | .bool, _, s => decodeBool_moves s
  | .string, _, s => decodeString_moves s
  | .bigInt, _, s => by
    rw [decodeValue]
    split <;> next heq => exact reaches_of_eq (decodeBigInt_moves s) heq
  | .ptr elem, ts, s => by
    by_cases big : elem = .bigInt
    · subst big
      rw [decodeValue]
      split <;> next heq => exact reaches_of_eq (decodeBigInt_moves s) heq
    · rw [decodeValue]
      · split
        · exact decodeOptionalPtr_moves (decodeValue_moves elem Tags.none) s
        · exact decodePtr_moves (decodeValue_moves elem Tags.none) s
      · exact big
  | .slice elem, ts, s => by
    rw [decodeValue]
    split
    · exact decodeByteSlice_moves s
    · split
      · split <;> next heq =>
          exact reaches_of_eq (decodeSliceElems_moves (decodeValue_moves elem Tags.none) _ s) heq
      · split <;> next heq =>
          exact reaches_of_eq (decodeListSlice_moves (decodeValue_moves elem Tags.none) s) heq
  | .array vlen elem, _, s => by
    rw [decodeValue]
    split
    · exact decodeByteArray_moves vlen s
    · split <;> next heq =>
        exact reaches_of_eq (decodeListArray_moves (decodeValue_moves elem Tags.none) vlen s) heq
  | .struct fields, _, s => by
    rw [decodeValue]
    split
    · exact Reaches.refl s
    · split
      · next heq => exact reaches_of_eq (Stream.List_reaches s) heq
      · next heq =>
        have entered := reaches_of_eq (Stream.List_reaches s) heq
        split
        · next heq' => exact entered.trans (reaches_of_eq (decodeFields_moves fields _) heq')
        · next heq' =>
          have read := entered.trans (reaches_of_eq (decodeFields_moves fields _) heq')
          split <;> next heq'' => exact read.trans (reaches_of_eq (Stream.ListEnd_reaches _) heq'')
  | .iface, _, s => decodeInterface_moves _ s
/-- The field loop of a struct changes the stream by moves only. -/
theorem decodeFields_moves : ∀ fields : List (GoType × Tags), ByMoves (decodeFields fields)
  | [], s => Reaches.refl s
  | (ty, ts) :: fields, s => by
    rw [decodeFields]
    -- the field itself: skipped, or decoded with `EOL` renamed
    have field : Reaches s (if ts.ignored = true then ((.ok ty.zero, s) : Except Error GoValue × Stream)
        else match decodeValue ty ts s with
          | (.error .eol, s) => (.error (.decodeError "too few elements"), s)
          | result => result).2 := by
      split
      · exact Reaches.refl s
      · split
        · next heq => exact reaches_of_eq (decodeValue_moves ty ts s) heq
        · exact decodeValue_moves ty ts s
    split
    · next heq => exact reaches_of_eq field heq
    · next heq =>
      have first := reaches_of_eq field heq
      split <;> next heq' => exact first.trans (reaches_of_eq (decodeFields_moves fields _) heq')
end

/-! ## Runs -/

/-- The operations a caller makes on a stream. A caller may go on after an
error, so a run keeps the stream each operation leaves. -/
inductive StreamOp where
  | kind
  | bytes
  | uint
  | bool
  | raw
  | list
  | listEnd
  | decode (ty : GoType)

namespace StreamOp

/-- The stream an operation leaves. -/
def run : StreamOp → Stream → Stream
  | .kind, s => s.Kind.2
  | .bytes, s => s.Bytes.2
  | .uint, s => s.Uint.2
  | .bool, s => s.Bool.2
  | .raw, s => s.Raw.2
  | .list, s => s.List.2
  | .listEnd, s => s.ListEnd.2
  | .decode ty, s => (s.Decode ty).2

/-- The stream a sequence of operations leaves. -/
def runAll (ops : List StreamOp) (s : Stream) : Stream := ops.foldl (fun s op => op.run s) s

theorem run_reaches : ∀ (op : StreamOp) (s : Stream), Reaches s (op.run s)
  | .kind, s => Kind_reaches s
  | .bytes, s => Stream.Bytes_reaches s
  | .uint, s => Stream.Uint_reaches s
  | .bool, s => Stream.Bool_reaches s
  | .raw, s => Stream.Raw_reaches s
  | .list, s => Stream.List_reaches s
  | .listEnd, s => Stream.ListEnd_reaches s
  | .decode ty, s => decodeValue_moves ty Tags.none s

theorem runAll_reaches : ∀ (ops : List StreamOp) (s : Stream), Reaches s (runAll ops s)
  | [], s => Reaches.refl s
  | op :: ops, s => (run_reaches op s).trans (runAll_reaches ops (op.run s))

end StreamOp

open StreamOp

/-- Every run on a stream from `Reset` keeps the bookkeeping: every open list
has `pos ≤ size` and lies within its parent, and the bytes read stay within
the limit. -/
theorem runAll_reset_bounded (input : List UInt8) (inputLimit : Nat) (ops : List StreamOp) :
    Bounded input (reset input inputLimit).remaining (runAll ops (reset input inputLimit)) :=
  (bounded_reset input inputLimit).reaches (runAll_reaches ops _)

/-- The same from `NewListStream`. -/
theorem runAll_newListStream_bounded (input : List UInt8) (len : Nat) (ops : List StreamOp) :
    Bounded input (newListStream input len).remaining (runAll ops (newListStream input len)) :=
  (bounded_newListStream input len).reaches (runAll_reaches ops _)

/-- Every stream the decoder of `DecodeBytes` leaves keeps the bookkeeping
under the length of the input as its limit. -/
theorem decodeValue_bounded (ty : GoType) (b : List UInt8) :
    Bounded b b.length (decodeValue ty Tags.none (reset b b.length)).2 := by
  have limit : (reset b b.length).remaining = b.length := by
    simp only [reset]
    split_ifs <;> omega
  have start := bounded_reset b b.length
  rw [limit] at start
  exact start.reaches (decodeValue_moves ty Tags.none _)

/-! ## What the invariant bounds -/

namespace Stream

variable {input : List UInt8} {limit : Nat}

/-- The free space of the innermost list is within the limit left. -/
theorem Bounded.free_le {s : Stream} (b : Bounded input limit s) :
    (match s.stack with
      | [] => s.remaining
      | tos :: _ => tos.size - tos.pos) ≤ s.remaining := by
  have needs := b.need
  cases hst : s.stack with
  | nil => exact le_rfl
  | cons tos outer =>
    rw [hst] at needs
    simp only [Stream.need] at needs
    dsimp only
    omega

/-- When the limit is the length of the input, the limit left is at most the
input left. -/
theorem Bounded.remaining_le {s : Stream} (b : Bounded input input.length s) :
    s.remaining ≤ s.r.length := by
  have within := b.within
  have inInput := b.suffix.length_le
  omega

/-- A size `Kind` reports without an error is within the limit left. -/
theorem Kind_size_le {s s' : Stream} {k : Kind} {n : Nat} (b : Bounded input limit s)
    (h : s.Kind = ((k, n, none), s')) : n ≤ s'.remaining := by
  have b' := b.reaches (reaches_of_eq (Kind_reaches s) h)
  obtain ⟨hk, hn, he⟩ := Kind_caches h
  have checked := b'.cached k hk he
  rw [hn, sizeErr_eq_none b'.limited] at checked
  exact le_trans checked b'.free_le

/-- Under the limit `DecodeBytes` sets, the buffer that `Bytes`, `Raw` or a
decoder makes for a value `Kind` reported is no longer than the input left. -/
theorem Kind_size_le_r {s s' : Stream} {k : Kind} {n : Nat} (b : Bounded input input.length s)
    (h : s.Kind = ((k, n, none), s')) : n ≤ s'.r.length :=
  le_trans (Kind_size_le b h) (b.reaches (reaches_of_eq (Kind_reaches s) h)).remaining_le

theorem Kind_size_le_r_string :
    (reset [0x82, 1, 2] 3).Kind = ((.string, 2, none), (reset [0x82, 1, 2] 3).Kind.2) ∧
      2 ≤ (reset [0x82, 1, 2] 3).Kind.2.r.length :=
  have kind : (reset [0x82, 1, 2] 3).Kind = ((.string, 2, none), (reset [0x82, 1, 2] 3).Kind.2) := rfl
  ⟨kind, Kind_size_le_r (bounded_reset [0x82, 1, 2] 3) kind⟩

end Stream

end FiscoBcos.Rlp
