import Mathlib

/-!
# Go's `strings` on decoded text

A Go string as the characters it decodes to; text that is not valid UTF-8 is
not modelled. `TrimSpace` drops the white space of `unicode.IsSpace` at both
ends (its ASCII fast path finds the same ends), `HasSuffix` and `TrimSuffix`
test for a suffix and cut it, and `strings.Split` with a one-character
separator is core's `List.splitOn`.
-/

namespace GoStrings

/-- `unicode.IsSpace`: in Latin-1 the characters `\t`, `\n`, `\v`, `\f`,
`\r`, space, U+0085 and U+00A0; above it the `White_Space` characters. -/
def isSpace (c : Char) : Bool :=
  if c.toNat ≤ 0xFF then [0x09, 0x0A, 0x0B, 0x0C, 0x0D, 0x20, 0x85, 0xA0].contains c.toNat
  else c.toNat = 0x1680 || (0x2000 ≤ c.toNat && c.toNat ≤ 0x200A) ||
    [0x2028, 0x2029, 0x202F, 0x205F, 0x3000].contains c.toNat

/-- `strings.TrimSpace`. -/
def TrimSpace (s : List Char) : List Char := (s.dropWhile isSpace).rdropWhile isSpace

/-- `strings.HasSuffix`. -/
def HasSuffix (s suffix : List Char) : Bool := suffix.isSuffixOf s

/-- `strings.TrimSuffix`: `s` without `suffix` when it ends with it. -/
def TrimSuffix (s suffix : List Char) : List Char :=
  if HasSuffix s suffix then s.take (s.length - suffix.length) else s

/-- Text with no white space in it is its own trimming. -/
theorem TrimSpace_eq_self {s : List Char} (none : ∀ c ∈ s, isSpace c = false) : TrimSpace s = s := by
  have front : s.dropWhile isSpace = s := by
    rw [List.dropWhile_eq_self_iff]
    intro pos
    simp [none _ (List.getElem_mem pos)]
  rw [TrimSpace, front, List.rdropWhile_eq_self_iff]
  intro ne
  simp [none _ (List.getLast_mem ne)]

theorem HasSuffix_append (s suffix : List Char) : HasSuffix (s ++ suffix) suffix = true :=
  List.isSuffixOf_iff_suffix.mpr (List.suffix_append s suffix)

/-- Text whose last character is not `c` does not end with `[c]`. -/
theorem HasSuffix_singleton_eq_false {s : List Char} {c : Char} (last : s.getLast? ≠ some c) :
    HasSuffix s [c] = false := by
  rw [HasSuffix, Bool.eq_false_iff]
  intro ends
  obtain ⟨front, rfl⟩ := List.isSuffixOf_iff_suffix.mp ends
  exact last (by simp)

theorem TrimSuffix_append (s suffix : List Char) : TrimSuffix (s ++ suffix) suffix = s := by
  rw [TrimSuffix, if_pos (HasSuffix_append s suffix), List.length_append, Nat.add_sub_cancel,
    List.take_left' rfl]

/-- Text joined from pieces with a separator that none of them holds, as a
loop of `fmt.Sprintf("%s/%d", ...)` builds it, splits back into the
pieces. -/
theorem splitOn_join {sep : Char} {first : List Char} {texts : List (List Char)} (hfirst : sep ∉ first)
    (htexts : ∀ t ∈ texts, sep ∉ t) : (first ++ texts.flatMap (sep :: ·)).splitOn sep = first :: texts := by
  induction texts generalizing first with
  | nil => rw [List.flatMap_nil, List.append_nil, List.splitOn_eq_singleton hfirst]
  | cons t texts ih =>
    rw [List.flatMap_cons, List.cons_append, List.splitOn_append_cons_self_of_not_mem hfirst,
      ih (htexts t List.mem_cons_self) fun t' mem => htexts t' (List.mem_cons_of_mem t mem)]

end GoStrings
