import Mathlib

/-!
# Counting references held in a map

A map whose values name keys, `out v` the names a value holds: how the number
of references to a key changes when an entry is inserted, erased or replaced
(`refs_insert`, `refs_erase`, `refs_replace`). A scheduler that keeps in each
entry the count of references to it keeps the counts right when every change
of the map comes with the matching change of the counts.
-/

namespace RefCount

variable {α β : Type} [DecidableEq α] {m : AList fun _ : α => β} {k : α} {v : β}

/-- An entry found by its key splits the entries around it. -/
theorem entries_split (look : m.lookup k = some v) :
    ∃ l₁ l₂, k ∉ l₁.keys ∧ m.entries = l₁ ++ ⟨k, v⟩ :: l₂ ∧ m.entries.kerase k = l₁ ++ l₂ := by
  have read : m.entries.dlookup k = some v := look
  have mem : k ∈ m.entries.keys := List.dlookup_isSome.mp (by simp [read])
  obtain ⟨b, l₁, l₂, fresh, split, erased⟩ := List.exists_of_kerase mem
  -- the entry found is the one the lookup reads
  have same : b = v := by
    rw [split, List.dlookup_append, List.dlookup_eq_none.mpr fresh, Option.none_or,
      List.dlookup_cons_eq] at read
    exact Option.some_inj.mp read
  exact ⟨l₁, l₂, fresh, same ▸ split, erased⟩

theorem kreplace_split {l₁ l₂ : List (Σ _ : α, β)} (fresh : k ∉ l₁.keys) (v' : β) :
    (l₁ ++ ⟨k, v⟩ :: l₂).kreplace k v' = l₁ ++ ⟨k, v'⟩ :: l₂ := by
  induction l₁ with
  | nil => exact List.lookmap_cons_some _ _ (by simp)
  | cons e l₁ ih =>
    have ne : k ≠ e.1 := fun same => fresh (same ▸ List.mem_cons_self)
    rw [List.cons_append, List.kreplace, List.lookmap_cons_none _ _ (by simp [ne]), ← List.kreplace,
      ih fun mem => fresh (List.mem_cons_of_mem _ mem), List.cons_append]

theorem length_erase (look : m.lookup k = some v) : (m.erase k).entries.length + 1 = m.entries.length := by
  obtain ⟨l₁, l₂, -, split, erased⟩ := entries_split look
  have entries : (m.erase k).entries = l₁ ++ l₂ := erased
  simp [entries, split]
  omega

theorem length_replace (look : m.lookup k = some v) (v' : β) :
    (m.replace k v').entries.length = m.entries.length := by
  obtain ⟨l₁, l₂, fresh, split, -⟩ := entries_split look
  have entries : (m.replace k v').entries = l₁ ++ ⟨k, v'⟩ :: l₂ := by
    show m.entries.kreplace k v' = _
    rw [split, kreplace_split fresh]
  simp [entries, split]

variable [BEq α] (out : β → List α)

/-- The references to `a` that the values of `m` hold. -/
def refs (m : AList fun _ : α => β) (a : α) : Nat := (m.entries.flatMap fun e => out e.2).count a

variable {out}

theorem refs_insert (fresh : k ∉ m) (a : α) : refs out (m.insert k v) a = (out v).count a + refs out m a := by
  rw [refs, AList.entries_insert_of_notMem fresh, List.flatMap_cons, List.count_append, ← refs]

theorem refs_erase (look : m.lookup k = some v) (a : α) :
    refs out (m.erase k) a + (out v).count a = refs out m a := by
  obtain ⟨l₁, l₂, -, split, erased⟩ := entries_split look
  have entries : (m.erase k).entries = l₁ ++ l₂ := erased
  simp only [refs, entries, split, List.flatMap_append, List.flatMap_cons, List.count_append]
  omega

theorem refs_replace (look : m.lookup k = some v) (v' : β) (a : α) :
    refs out (m.replace k v') a + (out v).count a = refs out m a + (out v').count a := by
  obtain ⟨l₁, l₂, fresh, split, -⟩ := entries_split look
  have entries : (m.replace k v').entries = l₁ ++ ⟨k, v'⟩ :: l₂ := by
    show m.entries.kreplace k v' = _
    rw [split, kreplace_split fresh]
  simp only [refs, entries, split, List.flatMap_append, List.flatMap_cons, List.count_append]
  omega

variable [LawfulBEq α]

/-- Some value holds a reference to `a` exactly when the count is positive. -/
theorem refs_pos_iff {a : α} : 0 < refs out m a ↔ ∃ k v, m.lookup k = some v ∧ a ∈ out v := by
  rw [refs, List.count_pos_iff, List.mem_flatMap]
  constructor
  · rintro ⟨e, mem, hit⟩
    exact ⟨e.1, e.2, AList.mem_lookup_iff.mpr mem, hit⟩
  · rintro ⟨k, v, look, hit⟩
    exact ⟨⟨k, v⟩, AList.mem_lookup_iff.mp look, hit⟩

end RefCount
