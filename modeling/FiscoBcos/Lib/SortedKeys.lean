import FiscoBcos.Lib.PathOrder
import Mathlib

/-!
# Sorting keys, and the keys with a prefix

Keys in a linear order, sorted by insertion. The result is a permutation of
the keys, increasing, and strictly so when the keys are distinct; it depends
only on which keys there are, not on the order they came in
(`sort_eq_of_perm`), so the keys of a map collected in any order sort to one
list. Filtering commutes with sorting.

For keys that are lists in their lexicographic order, the keys that extend a
prefix `p` stand together at the front of the sorted keys from `p` on
(`filter_prefix_eq_takeWhile`): a key from `p` on that does not extend `p` is
above every key that does.
-/

namespace SortedKeys

section Sorting

variable {β : Type*} [LE β] [DecidableLE β]

/-- Sorting by `≤`, by insertion: any sort gives the same list of distinct
keys (`sort_eq_of_perm`). -/
def sort (l : List β) : List β := l.insertionSort (· ≤ ·)

theorem sort_perm (l : List β) : (sort l).Perm l := List.perm_insertionSort _ l

theorem mem_sort {l : List β} {a : β} : a ∈ sort l ↔ a ∈ l := (sort_perm l).mem_iff

variable [Std.IsLinearOrder β]

theorem pairwise_le_sort (l : List β) : (sort l).Pairwise (· ≤ ·) := by
  have : IsTrans β (· ≤ ·) := ⟨fun _ _ _ => Std.le_trans⟩
  exact List.pairwise_insertionSort _ l

/-- Two lists of the same keys sort to the same list. -/
theorem sort_eq_of_perm {l₁ l₂ : List β} (p : l₁.Perm l₂) : sort l₁ = sort l₂ :=
  List.Perm.eq_of_pairwise (fun _ _ _ _ ab ba => Std.le_antisymm ab ba) (pairwise_le_sort l₁)
    (pairwise_le_sort l₂) (((sort_perm l₁).trans p).trans (sort_perm l₂).symm)

theorem filter_sort (test : β → Bool) (l : List β) : (sort l).filter test = sort (l.filter test) :=
  List.Perm.eq_of_pairwise (fun _ _ _ _ ab ba => Std.le_antisymm ab ba) ((pairwise_le_sort l).filter test)
    (pairwise_le_sort _) (((sort_perm l).filter test).trans (sort_perm _).symm)

variable [LT β] [Std.LawfulOrderLT β]

/-- Distinct keys sort into a strictly increasing list. -/
theorem pairwise_lt_sort {l : List β} (nodup : l.Nodup) : (sort l).Pairwise (· < ·) := by
  have distinct : (sort l).Nodup := (sort_perm l).nodup_iff.mpr nodup
  exact ((pairwise_le_sort l).and distinct).imp fun both => Std.lt_of_le_of_ne both.1 both.2

end Sorting

section Prefix

variable {α : Type*} [LT α] [LE α] [Std.IsLinearOrder α] [Std.LawfulOrderLT α]

/-- A key from `p` on that does not extend `p` is above every key that does. -/
theorem append_lt_of_le {p k : List α} (le : p ≤ k) (parts : ¬ p <+: k) (x : List α) : p ++ x < k := by
  have ne : p ≠ k := fun same => parts (same ▸ List.prefix_refl p)
  exact PathOrder.append_lt_of_not_prefix x (Std.lt_of_le_of_ne le ne) parts

variable [BEq α] [LawfulBEq α]

/-- In an increasing list of keys from `p` on, the keys that extend `p` are
the run at its front. -/
theorem filter_prefix_eq_takeWhile {p : List α} {l : List (List α)} (sorted : l.Pairwise (· < ·))
    (above : ∀ k ∈ l, p ≤ k) : l.filter p.isPrefixOf = l.takeWhile p.isPrefixOf := by
  induction l with
  | nil => rfl
  | cons k l ih =>
    obtain ⟨later, sortedTail⟩ := List.pairwise_cons.mp sorted
    by_cases extends_p : p.isPrefixOf k = true
    · rw [List.filter_cons_of_pos extends_p, List.takeWhile_cons_of_pos extends_p,
        ih sortedTail fun k' mem => above k' (List.mem_cons_of_mem k mem)]
    · -- every later key is above `k`, and `k` is above every extension of `p`
      have parts : ¬ p <+: k := fun pre => extends_p (List.isPrefixOf_iff_prefix.mpr pre)
      have none : ∀ k' ∈ l, p.isPrefixOf k' = false := by
        intro k' mem
        rw [Bool.eq_false_iff]
        intro pre
        obtain ⟨x, rfl⟩ := List.isPrefixOf_iff_prefix.mp pre
        have below := append_lt_of_le (above k List.mem_cons_self) parts x
        exact Std.lt_irrefl (Std.lt_of_le_of_lt (Std.le_of_lt below) (later _ mem))
      rw [List.filter_cons_of_neg extends_p, List.takeWhile_cons_of_neg extends_p,
        List.filter_eq_nil_iff.mpr fun k' mem => by simp [none k' mem]]

end Prefix

end SortedKeys
