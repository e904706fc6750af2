import FiscoBcos.Types.Bloom
import Mathlib

/-!
# Rotated bloom bits

`core/bloombits/generator.go`: a `Generator` takes the blooms of `sections`
consecutive blocks and stores them rotated, one bit vector per bloom bit
with one bit per section. `AddBloom` reads bit `i` of a bloom at byte
`BloomByteLength - 1 - i/8` with mask `1 << (i%8)`, which is bit `i` of the
bloom's big-endian value (`bloomBitSet_eq`), and sets bit `nextSec` of row
`i` (`Bitset.set`). `calcBloomIndexes` (`core/bloombits/matcher.go`)
recomputes the three bit indexes of a value with its mask parenthesised the
other way; they are `bloom9`'s (`calcBloomIndexes_eq`).

Adding the blooms of all sections in order leaves bit `s` of row `i` equal to
bit `i` of the bloom of section `s` (`Rotated`, `Rotated.addBlooms`). A
section therefore has the bits of all three rows of a value set exactly when
`BloomLookup` finds the value in its bloom (`Bitset_matches_BloomLookup`).
-/

namespace FiscoBcos.Bloombits

open Types

/-- `errSectionOutOfBounds`. -/
def errSectionOutOfBounds : String := "section out of bounds"

/-- `errBloomBitOutOfBounds`. -/
def errBloomBitOutOfBounds : String := "bloom bit out of bounds"

/-- `Generator`. -/
structure Generator where
  blooms : List (List UInt8)
  sections : Nat
  nextSec : Nat

/-- `NewGenerator`. -/
def NewGenerator (sections : Nat) : Except String Generator :=
  if sections % 8 ≠ 0 then .error "section count not multiple of 8"
  else .ok ⟨List.replicate BloomBitLength (List.replicate (sections / 8) 0), sections, 0⟩

/-- The test of `AddBloom`'s loop: bit `i` of the bloom, at byte
`BloomByteLength - 1 - i/8` with mask `1 << (i%8)`. -/
def bloomBitSet (bloom : Bloom) (i : Nat) : Bool :=
  let bloomByteIndex := BloomByteLength - 1 - i / 8
  let bloomBitMask : UInt8 := 1 <<< (i % 8).toUInt8
  (bloom.bytes.getD bloomByteIndex 0 &&& bloomBitMask) != 0

namespace Generator

/-- `AddBloom`. -/
def AddBloom (b : Generator) (index : Nat) (bloom : Bloom) : Except String Generator :=
  if b.nextSec ≥ b.sections then .error errSectionOutOfBounds
  else if b.nextSec ≠ index then .error "bloom filter with unexpected index"
  else
    let byteIndex := b.nextSec / 8
    let bitMask : UInt8 := 1 <<< (7 - b.nextSec % 8).toUInt8
    let blooms := (List.range BloomBitLength).foldl (fun blooms i =>
      if bloomBitSet bloom i then blooms.modify i fun row => row.modify byteIndex (· ||| bitMask)
      else blooms) b.blooms
    .ok { b with blooms := blooms, nextSec := b.nextSec + 1 }

/-- `Bitset`. -/
def Bitset (b : Generator) (idx : Nat) : Except String (List UInt8) :=
  if b.nextSec ≠ b.sections then .error "bloom not fully generated yet"
  else if idx ≥ BloomBitLength then .error errBloomBitOutOfBounds
  else .ok (b.blooms.getD idx [])

/-- The blooms added in order, the `k`-th at index `index + k`, as the
section processor adds the blocks of a section. -/
def addBlooms : Generator → Nat → List Bloom → Except String Generator
  | g, _, [] => .ok g
  | g, index, bloom :: rest => (g.AddBloom index bloom).bind fun g => addBlooms g (index + 1) rest

end Generator

/-- `calcBloomIndexes`. -/
def calcBloomIndexes (keccak256 : List UInt8 → List UInt8) (b : List UInt8) : List Nat :=
  let b := keccak256 b
  (List.range 3).map fun i => (((b.getD (2 * i) 0).toNat <<< 8) &&& 2047) + (b.getD (2 * i + 1) 0).toNat

/-! ## The two readings of the bit indexes -/

/-- Masking the high byte first and adding the low one gives `bloom9`'s
index. -/
theorem mask_then_add (hi lo : UInt8) :
    ((hi.toNat <<< 8) &&& 2047) + lo.toNat = (lo.toNat + (hi.toNat <<< 8)) &&& 2047 := by
  have mask : (2047 : Nat) = 2 ^ 11 - 1 := rfl
  rw [mask, Nat.and_two_pow_sub_one_eq_mod, Nat.and_two_pow_sub_one_eq_mod, Nat.shiftLeft_eq]
  have := lo.toNat_lt
  omega

theorem calcBloomIndexes_eq (keccak256 : List UInt8 → List UInt8) (x : List UInt8) :
    calcBloomIndexes keccak256 x =
      [bloomBit (keccak256 x) 0, bloomBit (keccak256 x) 2, bloomBit (keccak256 x) 4] := by
  simp [calcBloomIndexes, bloomBit, List.range_succ, mask_then_add]

/-- `AddBloom` reads bit `i` of the bloom's big-endian value. -/
theorem bloomBitSet_eq (bloom : Bloom) {i : Nat} (hi : i < BloomBitLength) :
    bloomBitSet bloom i = bloom.Big.testBit i := by
  have lt : i < 8 * bloom.bytes.length := by rwa [bloom.length_bytes]
  have small : i < 2048 := hi
  have index : (8 * bloom.bytes.length - 1 - i) / 8 = BloomByteLength - 1 - i / 8 := by
    rw [bloom.length_bytes]
    simp only [BloomByteLength]
    omega
  have within : 7 - (8 * bloom.bytes.length - 1 - i) % 8 = i % 8 := by
    rw [bloom.length_bytes]
    simp only [BloomByteLength]
    omega
  rw [Bloom.Big, Bitset.testBit_value bloom.bytes lt]
  simp only [bloomBitSet, Bitset.test, Bitset.mask, index, within]

/-! ## The rows after the blooms of the first sections -/

/-- Bit `i` of the `s`-th bloom of `added`, clear past its end. -/
def sectionBit (added : List Bloom) (i s : Nat) : Bool :=
  ((added[s]?).map fun bloom => bloom.Big.testBit i).getD false

theorem sectionBit_append_singleton (added : List Bloom) (bloom : Bloom) (i s : Nat) :
    sectionBit (added ++ [bloom]) i s =
      if s = added.length then bloom.Big.testBit i else sectionBit added i s := by
  unfold sectionBit
  rcases Nat.lt_trichotomy s added.length with lt | rfl | gt
  · rw [if_neg (Nat.ne_of_lt lt), List.getElem?_append_left lt]
  · simp
  · rw [if_neg (Nat.ne_of_gt gt), List.getElem?_eq_none (by simp; omega),
      List.getElem?_eq_none (by omega)]

/-- The generator after the blooms `added` of the first sections: bit `s` of
row `i` is bit `i` of the `s`-th of them, and clear for the sections to come. -/
structure Rotated (g : Generator) (added : List Bloom) : Prop where
  multiple : g.sections % 8 = 0
  nextSec : g.nextSec = added.length
  le_sections : added.length ≤ g.sections
  rows : g.blooms.length = BloomBitLength
  row_length : ∀ row ∈ g.blooms, row.length = g.sections / 8
  bits : ∀ i < BloomBitLength, ∀ s, Bitset.test (g.blooms.getD i []) s = sectionBit added i s

theorem rotated_NewGenerator {sections : Nat} (multiple : sections % 8 = 0) :
    ∃ g, NewGenerator sections = .ok g ∧ Rotated g [] ∧ g.sections = sections := by
  refine ⟨_, if_neg (by omega), ⟨multiple, rfl, Nat.zero_le _, List.length_replicate, ?_, ?_⟩, rfl⟩
  · intro row mem
    rw [List.eq_of_mem_replicate mem, List.length_replicate]
  · intro i hi s
    rw [List.getD_eq_getElem _ _ (by simpa using hi), List.getElem_replicate,
      Bitset.test_replicate_zero]
    rfl

private theorem getElem?_foldl_modify (c : Nat → Bool) (f : List UInt8 → List UInt8) {l : List Nat}
    (nodup : l.Nodup) (rows : List (List UInt8)) (j : Nat) :
    (l.foldl (fun rows i => if c i then rows.modify i f else rows) rows)[j]? =
      if j ∈ l ∧ c j = true then rows[j]?.map f else rows[j]? := by
  induction l generalizing rows with
  | nil => simp
  | cons i rest ih =>
    have fresh : i ∉ rest := (List.nodup_cons.mp nodup).1
    rw [List.foldl_cons, ih (List.nodup_cons.mp nodup).2]
    by_cases same : j = i
    · subst same
      by_cases hc : c j <;> simp [hc, fresh]
    · by_cases hc : c i <;> simp [hc, same, Ne.symm same]

private theorem length_foldl_modify (c : Nat → Bool) (f : List UInt8 → List UInt8) (l : List Nat)
    (rows : List (List UInt8)) :
    (l.foldl (fun rows i => if c i then rows.modify i f else rows) rows).length = rows.length := by
  induction l generalizing rows with
  | nil => rfl
  | cons i rest ih =>
    rw [List.foldl_cons, ih]
    split_ifs <;> simp

/-- The rows after one bloom more: row `j` is the old row with the new
section's bit set where the bloom has bit `j`. -/
theorem Rotated.of_rows {g : Generator} {added : List Bloom} (r : Rotated g added)
    (room : added.length < g.sections) (bloom : Bloom) {rows : List (List UInt8)}
    (rowsAt : ∀ j, rows[j]? =
      if j < BloomBitLength ∧ bloomBitSet bloom j = true then (g.blooms[j]?).map (Bitset.set · g.nextSec)
      else g.blooms[j]?)
    (length : rows.length = g.blooms.length) :
    Rotated ⟨rows, g.sections, g.nextSec + 1⟩ (added ++ [bloom]) := by
  have inRow : g.nextSec / 8 < g.sections / 8 := by
    have := r.multiple
    rw [r.nextSec]
    omega
  refine ⟨r.multiple, by rw [r.nextSec, List.length_append, List.length_singleton],
    by rw [List.length_append, List.length_singleton]; exact room, length.trans r.rows, ?_, ?_⟩
  · intro row mem
    obtain ⟨j, found⟩ := List.mem_iff_getElem?.mp mem
    rw [rowsAt] at found
    split_ifs at found
    · obtain ⟨old, oldFound, rfl⟩ := Option.map_eq_some_iff.mp found
      rw [Bitset.length_set, r.row_length old (List.mem_of_getElem? oldFound)]
    · exact r.row_length row (List.mem_of_getElem? found)
  · intro i hi s
    have oldRow : i < g.blooms.length := by rw [r.rows]; exact hi
    have rowLength := r.row_length _ (List.getElem_mem oldRow)
    have old : Bitset.test g.blooms[i] s = sectionBit added i s := by
      rw [← List.getD_eq_getElem _ [] oldRow, r.bits i hi s]
    rw [List.getD_eq_getElem?_getD, rowsAt, sectionBit_append_singleton, ← bloomBitSet_eq bloom hi,
      List.getElem?_eq_getElem oldRow]
    by_cases set : bloomBitSet bloom i = true
    · -- the bloom has bit `i`: the row gets the section's bit
      rw [if_pos ⟨hi, set⟩, Option.map_some, Option.getD_some,
        Bitset.test_set (by rw [rowLength]; exact inRow), old, set, r.nextSec]
      by_cases same : s = added.length <;> simp [same]
    · rw [if_neg fun h => set h.2, Option.getD_some, old]
      by_cases same : s = added.length
      · rw [if_pos same, same, sectionBit, List.getElem?_eq_none (le_refl _)]
        simpa using set
      · rw [if_neg same]

/-- One `AddBloom` at the next index: it succeeds while there is room, and
the rows then hold the new bloom's bits in its section. -/
theorem Rotated.addBloom {g : Generator} {added : List Bloom} (r : Rotated g added)
    (room : added.length < g.sections) (bloom : Bloom) :
    ∃ g', g.AddBloom added.length bloom = .ok g' ∧ Rotated g' (added ++ [bloom]) ∧
      g'.sections = g.sections := by
  unfold Generator.AddBloom
  rw [if_neg (by rw [r.nextSec]; omega), if_neg (by rw [r.nextSec]; exact not_not.mpr rfl)]
  refine ⟨_, rfl, r.of_rows room bloom (fun j => ?_) (length_foldl_modify _ _ _ _), rfl⟩
  simp only [getElem?_foldl_modify _ _ List.nodup_range, List.mem_range]
  rfl

/-- Adding blooms in order from the next index: every `AddBloom` succeeds
while they fit. -/
theorem Rotated.addBlooms {g : Generator} {added : List Bloom} (r : Rotated g added) (blooms : List Bloom)
    (room : added.length + blooms.length ≤ g.sections) :
    ∃ g', g.addBlooms added.length blooms = .ok g' ∧ Rotated g' (added ++ blooms) ∧
      g'.sections = g.sections := by
  induction blooms generalizing g added with
  | nil => exact ⟨g, rfl, by simpa using r, rfl⟩
  | cons bloom rest ih =>
    have fits : added.length < g.sections := by simp at room; omega
    obtain ⟨g₁, ok₁, r₁, sections₁⟩ := r.addBloom fits bloom
    obtain ⟨g₂, ok₂, r₂, sections₂⟩ := ih r₁ (by simp at room ⊢; omega)
    refine ⟨g₂, ?_, by simpa using r₂, sections₂.trans sections₁⟩
    rw [Generator.addBlooms, ok₁]
    simpa using ok₂

/-- Once all sections are in, `Bitset` gives row `i` for every bloom bit. -/
theorem Rotated.bitset {g : Generator} {added : List Bloom} (r : Rotated g added)
    (full : added.length = g.sections) {i : Nat} (hi : i < BloomBitLength) :
    g.Bitset i = .ok (g.blooms.getD i []) := by
  unfold Generator.Bitset
  rw [if_neg (by rw [r.nextSec, full]; exact not_not.mpr rfl), if_neg (Nat.not_le.mpr hi)]

/-- For every multiple of 8 as the section count and every sequence of that
many blooms added in order, the section bit of the three rows of a value is
set exactly when `BloomLookup` finds the value in that section's bloom. -/
theorem Bitset_matches_BloomLookup (keccak256 : List UInt8 → List UInt8) (blooms : List Bloom)
    (multiple : blooms.length % 8 = 0) :
    ∃ g, ((NewGenerator blooms.length).bind fun g => g.addBlooms 0 blooms) = .ok g ∧
      ∀ (x : List UInt8) (s : Nat) (hs : s < blooms.length),
        (∀ i ∈ calcBloomIndexes keccak256 x, ∃ row, g.Bitset i = .ok row ∧ Bitset.test row s = true) ↔
          BloomLookup keccak256 blooms[s] x = true := by
  obtain ⟨g₀, ok₀, r₀, sections₀⟩ := rotated_NewGenerator multiple
  obtain ⟨g, ok, r, sections⟩ := r₀.addBlooms blooms (by simp [sections₀])
  refine ⟨g, by rw [ok₀]; exact ok, fun x s hs => ?_⟩
  have full : ([] ++ blooms).length = g.sections := by simp [sections, sections₀]
  -- the rows of the three indexes hold the section's bits of them
  have rowBit : ∀ i ∈ calcBloomIndexes keccak256 x,
      (∃ row, g.Bitset i = .ok row ∧ Bitset.test row s = true) ↔ blooms[s].Big.testBit i = true := by
    intro i mem
    have hi : i < BloomBitLength := by
      rw [calcBloomIndexes_eq] at mem
      simp only [List.mem_cons, List.not_mem_nil, or_false] at mem
      rcases mem with rfl | rfl | rfl <;> exact bloomBit_lt _ _
    rw [r.bitset full hi]
    simp only [Except.ok.injEq, exists_eq_left', r.bits i hi s, sectionBit, List.nil_append,
      List.getElem?_eq_getElem hs, Option.map_some, Option.getD_some]
  rw [BloomLookup_iff]
  constructor
  · intro all j bit
    rw [testBit_bloom9] at bit
    have mem : j ∈ calcBloomIndexes keccak256 x := by
      rw [calcBloomIndexes_eq]
      simpa using bit
    exact (rowBit j mem).mp (all j mem)
  · intro sub i mem
    have bit : (bloom9 keccak256 x).testBit i = true := by
      rw [testBit_bloom9]
      rw [calcBloomIndexes_eq] at mem
      simpa using mem
    exact (rowBit i mem).mpr (sub i bit)

/-- Eight sections of zero blooms: the first section's bits of the three rows
of any value are set exactly when `BloomLookup` finds it in a zero bloom. -/
theorem Bitset_matches_BloomLookup_eight :
    (List.replicate 8 zeroBloom).length % 8 = 0 ∧
      ∃ g, ((NewGenerator 8).bind fun g => g.addBlooms 0 (List.replicate 8 zeroBloom)) = .ok g ∧
        ∀ x : List UInt8,
          (∀ i ∈ calcBloomIndexes (fun _ => List.replicate 32 0) x,
              ∃ row, g.Bitset i = .ok row ∧ Bitset.test row 0 = true) ↔
            BloomLookup (fun _ => List.replicate 32 0) zeroBloom x = true := by
  obtain ⟨g, ok, spec⟩ :=
    Bitset_matches_BloomLookup (fun _ => List.replicate 32 0) (List.replicate 8 zeroBloom) (by decide)
  exact ⟨by decide, g, ok, fun x => spec x 0 (by decide)⟩

end FiscoBcos.Bloombits
