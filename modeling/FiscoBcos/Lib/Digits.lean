import Mathlib

/-!
# Big-endian digit strings

The value of a digit string read most significant digit first, as a loop
`acc = acc*b + d` computes it, and how it meets core's `Nat.toDigits`: the
loop reads back what `toDigits` writes (`value_toDigits`), and a digit string
with no leading zero is what `toDigits` writes for its value
(`toDigits_value`).
-/

namespace Digits

variable {b : Nat}

/-- The value of the digits `ds` in base `b`, most significant first. -/
def value (b : Nat) (ds : List Nat) : Nat := ds.foldl (fun acc d => acc * b + d) 0

/-- The loop started from `acc` shifts `acc` past the digits. -/
theorem foldl_value (acc : Nat) (ds : List Nat) :
    ds.foldl (fun acc d => acc * b + d) acc = acc * b ^ ds.length + value b ds := by
  induction ds generalizing acc with
  | nil => simp [value]
  | cons d ds ih =>
    have head : value b (d :: ds) = d * b ^ ds.length + value b ds := by
      rw [value, List.foldl_cons, ih, Nat.zero_mul, Nat.zero_add]
    rw [List.foldl_cons, ih, head, List.length_cons, Nat.pow_succ]
    ring

theorem value_cons (d : Nat) (ds : List Nat) : value b (d :: ds) = d * b ^ ds.length + value b ds := by
  rw [value, List.foldl_cons, foldl_value, Nat.zero_mul, Nat.zero_add]

theorem value_append (xs ys : List Nat) : value b (xs ++ ys) = value b xs * b ^ ys.length + value b ys := by
  rw [value, List.foldl_append, foldl_value]
  rfl

@[simp] theorem value_nil : value b [] = 0 := rfl

@[simp] theorem value_singleton (d : Nat) : value b [d] = d := by
  simp [value]

theorem value_append_singleton (xs : List Nat) (d : Nat) : value b (xs ++ [d]) = value b xs * b + d := by
  simp [value_append]

private theorem head?_append_of_ne_nil {α : Type} {l l' : List α} (ne : l ≠ []) : (l ++ l').head? = l.head? := by
  obtain ⟨x, xs, rfl⟩ := List.exists_cons_of_ne_nil ne
  rfl

/-- Digits below the base have a value below the next power. -/
theorem value_lt {ds : List Nat} (all : ∀ d ∈ ds, d < b) : value b ds < b ^ ds.length := by
  induction ds using List.reverseRecOn with
  | nil => simp
  | append_singleton xs d ih =>
    have front := ih fun d' mem => all d' (List.mem_append_left _ mem)
    have last := all d (by simp)
    rw [value_append_singleton, List.length_append, List.length_singleton, Nat.pow_succ]
    calc value b xs * b + d < (value b xs + 1) * b := by rw [Nat.succ_mul]; omega
      _ ≤ b ^ xs.length * b := Nat.mul_le_mul_right _ front

/-- A string that starts with a non-zero digit has a positive value. -/
theorem value_pos {d : Nat} {ds : List Nat} (lead : d ≠ 0) (pos : 0 < b) : 0 < value b (d :: ds) := by
  rw [value_cons]
  have : 0 < d * b ^ ds.length := Nat.mul_pos (Nat.pos_of_ne_zero lead) (Nat.pow_pos pos)
  omega

/-- Reading the digits that `toDigits` writes gives the number back. -/
theorem value_toDigits (f : Char → Nat) (hb : 1 < b) (hf : ∀ d < b, f (Nat.digitChar d) = d) (n : Nat) :
    value b ((Nat.toDigits b n).map f) = n := by
  induction n using Nat.strong_induction_on with
  | _ n ih =>
    rw [Nat.toDigits_eq_if hb]
    split
    · case isTrue small => simp [hf n small]
    · case isFalse large =>
      rw [List.map_append, value_append, ih (n / b) (Nat.div_lt_self (by omega) hb)]
      simp [hf (n % b) (Nat.mod_lt _ (by omega)), Nat.div_add_mod']

/-- `toDigits` writes only digit characters of digits below the base. -/
theorem mem_toDigits (hb : 1 < b) {n : Nat} {c : Char} (mem : c ∈ Nat.toDigits b n) :
    ∃ d < b, c = Nat.digitChar d := by
  induction n using Nat.strong_induction_on with
  | _ n ih =>
    rw [Nat.toDigits_eq_if hb] at mem
    split at mem
    · case isTrue small => exact ⟨n, small, List.mem_singleton.mp mem⟩
    · rcases List.mem_append.mp mem with front | last
      · exact ih (n / b) (Nat.div_lt_self (by omega) hb) front
      · exact ⟨n % b, Nat.mod_lt _ (by omega), List.mem_singleton.mp last⟩

/-- `toDigits` writes no leading zero. -/
theorem toDigits_head (hb : 1 < b) (n : Nat) (long : 1 < (Nat.toDigits b n).length) :
    (Nat.toDigits b n).head? ≠ some '0' := by
  induction n using Nat.strong_induction_on with
  | _ n ih =>
    rw [Nat.toDigits_eq_if hb] at long ⊢
    split at long
    · simp at long
    · case isFalse large =>
      rw [if_neg large, head?_append_of_ne_nil Nat.toDigits_ne_nil]
      by_cases top : n / b < b
      · -- the leading digit is `n / b`, which is not zero
        rw [Nat.toDigits_of_lt_base top]
        have : n / b ≠ 0 := Nat.pos_iff_ne_zero.mp (Nat.div_pos (by omega) (by omega))
        simpa [Nat.digitChar_eq_zero] using this
      · refine ih (n / b) (Nat.div_lt_self (by omega) hb) ?_
        rw [Nat.toDigits_eq_if hb, if_neg top, List.length_append, List.length_singleton]
        have := List.length_pos_iff.mpr (Nat.toDigits_ne_nil (n := n / b / b) (b := b))
        omega

/-- A digit string with no leading zero is what `toDigits` writes for its
value. -/
theorem toDigits_value (hb : 1 < b) {ds : List Nat} (ne : ds ≠ []) (all : ∀ d ∈ ds, d < b)
    (lead : 1 < ds.length → ds.head? ≠ some 0) : Nat.toDigits b (value b ds) = ds.map Nat.digitChar := by
  induction ds using List.reverseRecOn with
  | nil => exact absurd rfl ne
  | append_singleton xs d ih =>
    have last := all d (by simp)
    by_cases empty : xs = []
    · subst empty
      simp [Nat.toDigits_of_lt_base last]
    · -- a leading digit that is not zero makes the value of `xs` positive
      have head : xs.head? ≠ some 0 := by
        have long : 1 < (xs ++ [d]).length := by
          have := List.length_pos_iff.mpr empty
          simp only [List.length_append, List.length_singleton]
          omega
        rw [← head?_append_of_ne_nil empty]
        exact lead long
      have pos : 0 < value b xs := by
        obtain ⟨first, rest, rfl⟩ := List.exists_cons_of_ne_nil empty
        exact value_pos (by simpa using head) (by omega)
      have front_digits := ih empty (fun d' mem => all d' (List.mem_append_left _ mem)) (fun _ => head)
      rw [value_append_singleton, Nat.mul_comm, ← Nat.toDigits_append_toDigits hb pos last, front_digits,
        Nat.toDigits_of_lt_base last, List.map_append, List.map_singleton]

end Digits
