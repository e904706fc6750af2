import Mathlib

/-!
# Paths in lexicographic order

The order a pre-order walk of a tree lists its paths in: lists compared
lexicographically, a prefix before its extensions. A path comes before each
of its proper extensions; a path that is before a key without being a prefix
of it has every extension before the key too, so a walk towards the key may
skip the whole subtree below it. And a sorted list filtered past its first
match: what a cursor that moves past one element has left.
-/

namespace PathOrder

section Lex

variable {α : Type*} [LT α]

/-- Below a path that parts from the key before the key ends, every path is
before the key. -/
theorem append_lt_of_not_prefix : ∀ {p key : List α} (x : List α), p < key → ¬ p <+: key → p ++ x < key
  | [], _, _, _, parts => absurd List.nil_prefix parts
  | _ :: _, [], _, lt, _ => absurd lt (List.not_lt_nil _)
  | a :: p, b :: key, x, lt, parts => by
    rcases List.cons_lt_cons_iff.mp lt with head | ⟨rfl, tail⟩
    · exact List.cons_lt_cons_iff.mpr (.inl head)
    · have parted : ¬ p <+: key := fun pre => parts (List.cons_prefix_cons.mpr ⟨rfl, pre⟩)
      exact List.cons_lt_cons_iff.mpr (.inr ⟨rfl, append_lt_of_not_prefix x tail parted⟩)

end Lex

variable {α : Type*} [LinearOrder α]

/-- The empty path comes first. -/
theorem nil_le (p : List α) : [] ≤ p := by
  cases p with
  | nil => exact le_rfl
  | cons a p => exact le_of_lt (List.nil_lt_cons a p)

/-- A path comes before each of its proper extensions. -/
theorem lt_append_of_ne_nil (p : List α) {x : List α} (ne : x ≠ []) : p < p ++ x := by
  obtain ⟨y, ys, rfl⟩ := List.exists_cons_of_ne_nil ne
  simpa using List.append_left_lt (List.nil_lt_cons y ys)

/-- Two paths that part at a pair of siblings keep their order below them. -/
theorem append_singleton_append_lt (p : List α) {i j : α} (x y : List α) (lt : i < j) :
    p ++ [i] ++ x < p ++ [j] ++ y := by
  simpa only [List.append_assoc, List.singleton_append] using
    List.append_left_lt (List.cons_lt_cons_iff.mpr (.inl lt))

/-- In a sorted list, the elements that pass a test and come after its first
match pass the test moved past that match. -/
theorem filter_eq_of_filter_eq_cons {l : List α} (sorted : l.Pairwise (· < ·)) {p q : α → Bool}
    {a : α} {rest : List α} (first : l.filter p = a :: rest)
    (after : ∀ b ∈ l, q b = (decide (a < b) && p b)) : l.filter q = rest := by
  induction l with
  | nil => simp at first
  | cons b l ih =>
    have later := List.pairwise_cons.mp sorted
    have tail_after : ∀ c ∈ l, q c = (decide (a < c) && p c) := fun c mem => after c (by simp [mem])
    by_cases hit : p b = true
    · -- `b` is the first match: past it, the two tests agree
      rw [List.filter_cons_of_pos hit, List.cons.injEq] at first
      obtain ⟨rfl, rest_eq⟩ := first
      have skip : q b = false := by simp [after b (by simp)]
      rw [List.filter_cons_of_neg (by simp [skip]), ← rest_eq]
      exact List.filter_congr fun c mem => by simp [tail_after c mem, later.1 c mem]
    · rw [List.filter_cons_of_neg hit] at first
      have skip : q b = false := by simp [after b (by simp), hit]
      rw [List.filter_cons_of_neg (by simp [skip])]
      exact ih later.2 first tail_after

/-- In a sorted list, the elements that pass a test from its first match on
are all its matches. -/
theorem filter_eq_of_filter_eq_cons_le {l : List α} (sorted : l.Pairwise (· < ·)) {p q : α → Bool}
    {a : α} {rest : List α} (first : l.filter p = a :: rest)
    (onward : ∀ b ∈ l, q b = (decide (a ≤ b) && p b)) : l.filter q = a :: rest := by
  induction l with
  | nil => simp at first
  | cons b l ih =>
    have later := List.pairwise_cons.mp sorted
    have tail_onward : ∀ c ∈ l, q c = (decide (a ≤ c) && p c) := fun c mem => onward c (by simp [mem])
    by_cases hit : p b = true
    · rw [List.filter_cons_of_pos hit, List.cons.injEq] at first
      obtain ⟨rfl, rest_eq⟩ := first
      have keep : q b = true := by simp [onward b (by simp), hit]
      rw [List.filter_cons_of_pos keep, ← rest_eq]
      exact congrArg _ (List.filter_congr fun c mem => by simp [tail_onward c mem, (later.1 c mem).le])
    · rw [List.filter_cons_of_neg hit] at first
      have skip : q b = false := by simp [onward b (by simp), hit]
      rw [List.filter_cons_of_neg (by simp [skip])]
      exact ih later.2 first tail_onward

end PathOrder
