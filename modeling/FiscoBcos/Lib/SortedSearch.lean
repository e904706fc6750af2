import FiscoBcos.Lib.Search
import Mathlib

/-!
# Sorted lists and the position `sort.Search` finds in them

A list sorted by a key into a linear order, searched with the predicate
"the key at `i` is at least `k`". `sort.Search` then splits the list into the
entries whose key is below `k` and those whose key is at least `k`
(`lowerBound_splits`). Inserting an entry of key `k` at that position keeps
the list sorted, removing any entry keeps it sorted, and when some entry has
key `k` the entry at the position has it too (`Splits.key_eq`).
-/

namespace Search

variable {α β : Type*} [LinearOrder β] (key : α → β)

/-- The list is sorted by `key`, ties in any order. -/
def Sorted (l : List α) : Prop := l.Pairwise fun a b => key a ≤ key b

instance (l : List α) : Decidable (Sorted key l) :=
  inferInstanceAs (Decidable (l.Pairwise fun a b => key a ≤ key b))

/-- The predicate "the entry at `i` has key at least `k`". `sort.Search`
evaluates it only below the length of the list, where `l[i]?` is an entry. -/
def keyAtLeast (l : List α) (k : β) (i : Nat) : Bool := l[i]?.all fun a => decide (k ≤ key a)

/-- `sort.Search(len(l), keyAtLeast l k)`. -/
def lowerBound (l : List α) (k : β) : Nat := search l.length (keyAtLeast key l k)

/-- The position `n` splits `l` at `k`: every entry before it has key below
`k`, every entry from it on has key at least `k`. -/
structure Splits (l : List α) (k : β) (n : Nat) : Prop where
  le_length : n ≤ l.length
  below : ∀ a ∈ l.take n, key a < k
  above : ∀ a ∈ l.drop n, k ≤ key a

variable {key} {l : List α} {k : β}

theorem keyAtLeast_of_lt {i : Nat} (h : i < l.length) :
    keyAtLeast key l k i = decide (k ≤ key l[i]) := by
  simp [keyAtLeast, List.getElem?_eq_getElem h]

theorem Sorted.le (s : Sorted key l) {i j : Nat} (hi : i < l.length) (hj : j < l.length)
    (hij : i ≤ j) : key l[i] ≤ key l[j] := by
  rcases Nat.lt_or_eq_of_le hij with lt | rfl
  · exact List.pairwise_iff_getElem.mp s i j hi hj lt
  · exact le_refl _

theorem Sorted.sublist {l' : List α} (s : Sorted key l) (sub : l'.Sublist l) : Sorted key l' :=
  List.Pairwise.sublist sub s

theorem monotone_keyAtLeast (s : Sorted key l) : MonotoneBelow (keyAtLeast key l k) l.length := by
  intro i j hij hj hit
  have hi : i < l.length := by omega
  rw [keyAtLeast_of_lt hi, decide_eq_true_iff] at hit
  rw [keyAtLeast_of_lt hj, decide_eq_true_iff]
  exact le_trans hit (s.le hi hj hij)

/-- On a sorted list `sort.Search` splits the list at `k`. -/
theorem lowerBound_splits (s : Sorted key l) : Splits key l k (lowerBound key l k) := by
  have mono := monotone_keyAtLeast (k := k) s
  have b := search_bounds mono
  refine ⟨b.le_n, ?_, ?_⟩
  · intro a mem
    obtain ⟨i, hi, rfl⟩ := List.getElem_of_mem mem
    have hin : i < lowerBound key l k := by simp at hi; omega
    have hil : i < l.length := by simp at hi; omega
    have miss := b.below i hin
    rw [keyAtLeast_of_lt hil, decide_eq_false_iff_not, not_le] at miss
    simpa using miss
  · intro a mem
    obtain ⟨i, hi, rfl⟩ := List.getElem_of_mem mem
    have hil : lowerBound key l k + i < l.length := by simp at hi; omega
    -- the search hit at its own position, and the predicate stays true after it
    have hn : lowerBound key l k < l.length := by omega
    have hit := mono _ _ (Nat.le_add_right _ i) hil (b.at_j hn)
    rw [keyAtLeast_of_lt hil, decide_eq_true_iff] at hit
    simpa using hit

variable {n : Nat}

/-- A position that splits the sorted list at `k` is the one `sort.Search` finds. -/
theorem lowerBound_eq (s : Sorted key l) (sp : Splits key l k n) : lowerBound key l k = n := by
  apply search_eq (monotone_keyAtLeast s) sp.le_length
  · intro i lt
    have hi : i < l.length := by have := sp.le_length; omega
    have below := sp.below l[i] (List.mem_iff_getElem.mpr ⟨i, by simp; omega, by simp⟩)
    rw [keyAtLeast_of_lt hi, decide_eq_false_iff_not, not_le]
    exact below
  · intro lt
    have above := sp.above l[n] (List.mem_iff_getElem.mpr ⟨0, by simp; omega, by simp⟩)
    rw [keyAtLeast_of_lt lt, decide_eq_true_iff]
    exact above

private theorem getElem_mem_drop_self (h : n < l.length) : l[n] ∈ l.drop n := by
  rw [List.drop_eq_getElem_cons h]
  exact List.mem_cons_self

private theorem lt_length_of_mem_drop {a : α} (mem : a ∈ l.drop n) : n < l.length := by
  by_contra ge
  rw [List.drop_eq_nil_of_le (by omega)] at mem
  exact List.not_mem_nil mem

private theorem mem_drop_of_not_mem_take {a : α} (mem : a ∈ l) (notTake : a ∉ l.take n) :
    a ∈ l.drop n := by
  rw [← List.take_append_drop n l, List.mem_append] at mem
  exact mem.resolve_left notTake

/-- Inserting an entry of key `k` where the list splits at `k` keeps it sorted. -/
theorem Splits.insert {x : α} (sp : Splits key l (key x) n) (s : Sorted key l) :
    Sorted key (l.take n ++ x :: l.drop n) := by
  have parts : Sorted key (l.take n ++ l.drop n) := by rwa [List.take_append_drop]
  rw [Sorted, List.pairwise_append] at parts
  obtain ⟨sortedTake, sortedDrop, cross⟩ := parts
  rw [Sorted, List.pairwise_append, List.pairwise_cons]
  refine ⟨sortedTake, ⟨sp.above, sortedDrop⟩, ?_⟩
  intro a ha b hb
  rcases List.mem_cons.mp hb with rfl | hb
  · exact le_of_lt (sp.below a ha)
  · exact cross a ha b hb

/-- Removing the entry at any position keeps the list sorted. -/
theorem Sorted.take_append_drop_succ (s : Sorted key l) (n : Nat) :
    Sorted key (l.take n ++ l.drop (n + 1)) := by
  rw [← List.eraseIdx_eq_take_drop_succ]
  exact s.sublist (List.eraseIdx_sublist l n)

/-- When an entry of key `k` is present, the entry where the list splits at
`k` has key `k`. -/
theorem Splits.key_eq (sp : Splits key l k n) (s : Sorted key l) {a : α} (mem : a ∈ l)
    (eq : key a = k) : ∃ h : n < l.length, key l[n] = k := by
  have notTake : a ∉ l.take n := fun ha => absurd (sp.below a ha) (by rw [eq]; exact lt_irrefl k)
  have inDrop := mem_drop_of_not_mem_take mem notTake
  have h := lt_length_of_mem_drop inDrop
  refine ⟨h, le_antisymm ?_ (sp.above _ (getElem_mem_drop_self h))⟩
  -- the entry at `n` heads the sorted suffix that holds `a`
  have sortedDrop : Sorted key (l[n] :: l.drop (n + 1)) := by
    rw [← List.drop_eq_getElem_cons h]
    exact s.sublist (List.drop_sublist n l)
  rw [List.drop_eq_getElem_cons h] at inDrop
  rcases List.mem_cons.mp inDrop with rfl | tail
  · exact le_of_eq eq
  · exact eq ▸ (List.pairwise_cons.mp sortedDrop).1 a tail

/-- When no entry has key `k` but some has a larger key, the entry where the
list splits at `k` is there and has a key above `k`. -/
theorem Splits.key_gt (sp : Splits key l k n) (absent : ∀ a ∈ l, key a ≠ k)
    (larger : ∃ a ∈ l, k < key a) : ∃ h : n < l.length, k < key l[n] := by
  obtain ⟨a, mem, gt⟩ := larger
  have inDrop := mem_drop_of_not_mem_take mem fun ha => absurd (sp.below a ha) (not_lt.mpr gt.le)
  have h := lt_length_of_mem_drop inDrop
  have ge := sp.above _ (getElem_mem_drop_self h)
  exact ⟨h, lt_of_le_of_ne ge (absent _ (List.getElem_mem h)).symm⟩

/-- When every key is below `k`, the list splits at `k` at its end. -/
theorem Splits.eq_length (sp : Splits key l k n) (lt : ∀ a ∈ l, key a < k) : n = l.length := by
  by_contra ne
  have h : n < l.length := Nat.lt_of_le_of_ne sp.le_length ne
  exact absurd (sp.above _ (getElem_mem_drop_self h)) (not_le.mpr (lt _ (List.getElem_mem h)))

/-- Inserting at any position is a permutation of appending. -/
theorem perm_take_cons_drop (l : List α) (n : Nat) (x : α) :
    (l.take n ++ x :: l.drop n).Perm (l ++ [x]) := by
  have middle : (l.take n ++ x :: l.drop n).Perm (x :: (l.take n ++ l.drop n)) := List.perm_middle
  rw [List.take_append_drop] at middle
  exact middle.trans (List.perm_append_singleton x l).symm

/-- Splicing out the entry at `i` is, up to order, erasing that entry. -/
theorem perm_take_append_drop_succ_erase [DecidableEq α] {i : Nat} {a : α} (h : l[i]? = some a) :
    (l.take i ++ l.drop (i + 1)).Perm (l.erase a) := by
  obtain ⟨hi, rfl⟩ := List.getElem?_eq_some_iff.mp h
  have parts : l.take i ++ l[i] :: l.drop (i + 1) = l := by
    rw [← List.drop_eq_getElem_cons hi, List.take_append_drop]
  have split : (l.take i ++ l[i] :: l.drop (i + 1)).Perm (l[i] :: (l.take i ++ l.drop (i + 1))) :=
    List.perm_middle
  rw [parts] at split
  exact (split.symm.trans (List.perm_cons_erase (List.getElem_mem hi))).cons_inv

end Search
