import Mathlib

/-!
# Binary search for the first index of a monotone predicate

Go's `sort.Search(n, f)`: a loop over the range `[i, j)` that keeps `f` false
below `i` and true from `j` on, halving the range until it is empty. For a
predicate that is monotone on `[0, n)` it returns the first index at which `f`
holds, or `n` if there is none (`search_eq`).
-/

namespace Search

/-- The loop of `sort.Search` over `[i, j)`: `h` is the midpoint
`int(uint(i+j) >> 1)`. -/
def loop (f : Nat → Bool) (i j : Nat) : Nat :=
  if i < j then
    if !f ((i + j) / 2) then loop f ((i + j) / 2 + 1) j else loop f i ((i + j) / 2)
  else i
termination_by j - i
decreasing_by all_goals omega

/-- `sort.Search(n, f)`. -/
def search (n : Nat) (f : Nat → Bool) : Nat := loop f 0 n

/-- `f` is monotone on `[0, n)`: once it holds, it holds up to `n`. -/
def MonotoneBelow (f : Nat → Bool) (n : Nat) : Prop :=
  ∀ i j, i ≤ j → j < n → f i = true → f j = true

/-- The invariant of the loop: `f` fails below `i` and holds at `j`. -/
structure Bounds (f : Nat → Bool) (n i j : Nat) : Prop where
  le : i ≤ j
  le_n : j ≤ n
  below : ∀ k < i, f k = false
  at_j : j < n → f j = true

section

variable {f : Nat → Bool} {n : Nat}

theorem Bounds.right (mono : MonotoneBelow f n) {i j : Nat} (b : Bounds f n i j) (lt : i < j)
    (miss : f ((i + j) / 2) = false) : Bounds f n ((i + j) / 2 + 1) j := by
  refine ⟨by omega, b.le_n, ?_, b.at_j⟩
  intro k hk
  -- a hit at `k` would, by monotonicity, be a hit at the midpoint
  cases hf : f k with
  | false => rfl
  | true =>
    have hit := mono k ((i + j) / 2) (by omega) (by have := b.le_n; omega) hf
    rw [miss] at hit
    exact hit.symm

theorem Bounds.left {i j : Nat} (b : Bounds f n i j) (lt : i < j)
    (hit : f ((i + j) / 2) = true) : Bounds f n i ((i + j) / 2) :=
  ⟨by omega, by have := b.le_n; omega, b.below, fun _ => hit⟩

/-- What the loop returns: the first index of the range where `f` holds, or
its end. -/
theorem loop_bounds (mono : MonotoneBelow f n) {i j : Nat} (b : Bounds f n i j) :
    Bounds f n (loop f i j) (loop f i j) := by
  fun_induction loop f i j with
  | case1 i j lt miss ih =>
    exact ih (b.right mono lt (by simpa using miss))
  | case2 i j lt hit ih =>
    exact ih (b.left lt (by simpa using hit))
  | case3 i j ge =>
    have same : i = j := by have := b.le; omega
    subst same
    exact b

theorem search_bounds (mono : MonotoneBelow f n) :
    Bounds f n (search n f) (search n f) :=
  loop_bounds mono
    ⟨Nat.zero_le n, Nat.le_refl n, fun _ h => absurd h (Nat.not_lt_zero _), fun h => absurd h (Nat.lt_irrefl n)⟩

/-- `sort.Search` finds the first index where a monotone `f` holds. -/
theorem search_eq (mono : MonotoneBelow f n) {k : Nat} (le : k ≤ n)
    (below : ∀ i < k, f i = false) (at_k : k < n → f k = true) : search n f = k := by
  have b := search_bounds mono
  rcases Nat.lt_trichotomy (search n f) k with lt | eq | gt
  · have hit := b.at_j (by omega)
    rw [below _ lt] at hit
    exact absurd hit Bool.false_ne_true
  · exact eq
  · have hit := at_k (by have := b.le_n; omega)
    rw [b.below k gt] at hit
    exact absurd hit Bool.false_ne_true

end

end Search
