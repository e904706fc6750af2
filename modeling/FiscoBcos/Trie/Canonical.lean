import FiscoBcos.Trie.Update
import Mathlib

/-!
# A trie of the shape is determined by what it holds

Two nodes of the shape `Node.Wf` that hold the same value at every stored key
are the same node (`eq_of_lookup_eq`). A short node's key is the longest
prefix its keys share, since the branch below an extension holds keys that
part right after it; a branch's children are the nodes below each nibble.
So whatever sequence of `insert` and `delete` calls built a trie, its root is
a function of the map it holds, and so is everything computed from the root
alone, such as its hash.
-/

namespace FiscoBcos.Trie

open Node

theorem Terminated.cons_of_ne {x : Nibble} {p : List Nibble} (hx : x ≠ 16) (h : Terminated p) :
    Terminated (x :: p) :=
  .cons (lt_of_le_of_ne (Fin.le_last x) hx) h

theorem ne_nil_of_isFull {n : HexNode} (h : n.isFull) : n ≠ .nil := by
  rintro rfl
  simp [isFull] at h

/-! ## What a node of the shape holds -/

/-- A node of the shape other than nil holds a value at some stored key. -/
theorem exists_lookup (n : HexNode) (wf : n.Wf) (ne : n ≠ .nil) :
    ∃ p, Terminated p ∧ n.lookup p ≠ none := by
  induction n with
  | nil => exact absurd rfl ne
  | value _ => exact absurd wf id
  | hash _ => exact absurd wf id
  | short k v ih =>
    rcases wf with ⟨leaf, w, rfl⟩ | ⟨_, plain, full, wfv⟩
    · exact ⟨k, leaf, by simp [lookup_leaf]⟩
    · obtain ⟨p, hp, held⟩ := ih wfv (ne_nil_of_isFull full)
      refine ⟨k ++ p, (terminated_append_iff plain).mpr hp, ?_⟩
      rwa [lookup_short_append_self]
  | full cs ih =>
    obtain ⟨j, hj, set⟩ := exists_other_of_two_le wf.2.2 16
    obtain ⟨p, hp, held⟩ := ih j (wf.2.1 j hj) set
    exact ⟨j :: p, hp.cons_of_ne hj, held⟩

/-- A node of the shape that holds nothing is nil. -/
theorem eq_nil_of_lookup_none {n : HexNode} (wf : n.Wf)
    (none : ∀ p, Terminated p → n.lookup p = none) : n = .nil := by
  by_contra ne
  obtain ⟨p, hp, held⟩ := exists_lookup n wf ne
  exact held (none p hp)

/-- A set child of a branch holds a value below its nibble. -/
theorem exists_lookup_child {cs : Fin 17 → HexNode} (wf : (Node.full cs).Wf) {i : Fin 17}
    (set : cs i ≠ .nil) : ∃ p, Terminated (i :: p) ∧ (cs i).lookup p ≠ none := by
  by_cases h16 : i = 16
  · subst h16
    rcases wf.1 with e | ⟨w, e⟩
    · exact absurd e set
    · exact ⟨[], .term, by simp [e, lookup_value]⟩
  · obtain ⟨p, hp, held⟩ := exists_lookup (cs i) (wf.2.1 i h16) set
    exact ⟨p, hp.cons_of_ne h16, held⟩

/-- A branch holds values below two different nibbles. -/
theorem exists_two_heads {cs : Fin 17 → HexNode} (wf : (Node.full cs).Wf) :
    ∃ i j p q, i ≠ j ∧ Terminated (i :: p) ∧ Terminated (j :: q) ∧
      (Node.full cs).lookup (i :: p) ≠ none ∧ (Node.full cs).lookup (j :: q) ≠ none := by
  obtain ⟨i, _, hi⟩ := exists_other_of_two_le wf.2.2 16
  obtain ⟨j, ji, hj⟩ := exists_other_of_two_le wf.2.2 i
  obtain ⟨p, hp, heldp⟩ := exists_lookup_child wf hi
  obtain ⟨q, hq, heldq⟩ := exists_lookup_child wf hj
  exact ⟨i, j, p, q, Ne.symm ji, hp, hq, heldp, heldq⟩

/-- Every key a short node holds a value at starts with its key. -/
theorem prefix_of_lookup_short {k : List Nibble} {v : HexNode} {p : List Nibble}
    (held : (Node.short k v).lookup p ≠ none) : k <+: p := by
  rw [lookup_short] at held
  by_contra h
  exact held (if_neg h)

/-- A key that is a prefix of two keys parting after `a` is a prefix of `a`. -/
theorem prefix_of_prefix_parting {c a p q : List Nibble} {i j : Nibble} (ne : i ≠ j)
    (hp : c <+: a ++ i :: p) (hq : c <+: a ++ j :: q) : c <+: a := by
  rcases List.prefix_or_prefix_of_prefix hp (List.prefix_append a (i :: p)) with h | h
  · exact h
  · obtain ⟨r, rfl⟩ := h
    cases r with
    | nil => simp
    | cons x r =>
      have hi := List.cons_prefix_cons.mp ((List.prefix_append_right_inj a).mp hp)
      have hj := List.cons_prefix_cons.mp ((List.prefix_append_right_inj a).mp hq)
      exact absurd (hi.1.symm.trans hj.1) ne

/-! ## Two nodes holding the same values -/

section Same

variable {n m : HexNode}

/-- A short node and a branch never hold the same values: the short node's
keys share a first nibble, the branch's do not. -/
theorem not_same_short_full {k : List Nibble} {v : HexNode} {cs : Fin 17 → HexNode}
    (wf : (Node.short k v).Wf) (wfm : (Node.full cs).Wf) :
    ¬∀ p, Terminated p → (Node.short k v).lookup p = (Node.full cs).lookup p := by
  intro same
  have ne : k ≠ [] := by
    rcases wf with ⟨leaf, _⟩ | ⟨ne, _⟩
    · exact leaf.ne_nil
    · exact ne
  obtain ⟨x, k', rfl⟩ := List.exists_cons_of_ne_nil ne
  obtain ⟨i, j, p, q, ij, hp, hq, heldp, heldq⟩ := exists_two_heads wfm
  have hi := prefix_of_lookup_short (v := v) (by rwa [same _ hp])
  have hj := prefix_of_lookup_short (v := v) (by rwa [same _ hq])
  exact ij ((List.cons_prefix_cons.mp hi).1.symm.trans (List.cons_prefix_cons.mp hj).1)

/-- An extension holds values at two keys that part right after its key. -/
theorem exists_two_below_extension {k : List Nibble} {v : HexNode} (plain : Plain k) (full : v.isFull)
    (wfv : v.Wf) : ∃ i j p q, i ≠ j ∧ Terminated (k ++ i :: p) ∧ Terminated (k ++ j :: q) ∧
      (Node.short k v).lookup (k ++ i :: p) ≠ none ∧ (Node.short k v).lookup (k ++ j :: q) ≠ none := by
  obtain ⟨cs, rfl⟩ : ∃ cs, v = .full cs := by
    cases v with
    | full cs => exact ⟨cs, rfl⟩
    | _ => simp [isFull] at full
  obtain ⟨i, j, p, q, ij, hp, hq, heldp, heldq⟩ := exists_two_heads wfv
  refine ⟨i, j, p, q, ij, (terminated_append_iff plain).mpr hp, (terminated_append_iff plain).mpr hq,
    ?_, ?_⟩
  · rwa [lookup_short_append_self]
  · rwa [lookup_short_append_self]

/-- A leaf and an extension never hold the same values: the leaf holds one. -/
theorem not_same_leaf_extension {k k' : List Nibble} {w : List UInt8} {v : HexNode}
    (plain : Plain k') (full : v.isFull) (wfv : v.Wf) :
    ¬∀ p, Terminated p → (Node.short k (.value w)).lookup p = (Node.short k' v).lookup p := by
  intro same
  obtain ⟨i, j, p, q, ij, hp, hq, heldp, heldq⟩ := exists_two_below_extension plain full wfv
  have at_key : ∀ s, Terminated s → (Node.short k' v).lookup s ≠ none → s = k := by
    intro s hs held
    rw [← same s hs, lookup_leaf] at held
    by_contra e
    exact held (if_neg e)
  have parts := (at_key _ hp heldp).trans (at_key _ hq heldq).symm
  rw [List.append_cancel_left_eq, List.cons.injEq] at parts
  exact ij parts.1

/-- Two extensions holding the same values have the same key. -/
theorem key_eq_of_same {k k' : List Nibble} {v v' : HexNode} (plain : Plain k) (full : v.isFull)
    (wfv : v.Wf) (plain' : Plain k') (full' : v'.isFull) (wfv' : v'.Wf)
    (same : ∀ p, Terminated p → (Node.short k v).lookup p = (Node.short k' v').lookup p) : k = k' := by
  have below : ∀ {c c' : List Nibble} {u u' : HexNode}, Plain c → u.isFull → u.Wf →
      (∀ p, Terminated p → (Node.short c u).lookup p = (Node.short c' u').lookup p) → c' <+: c := by
    intro c c' u u' plain full wfu same
    obtain ⟨i, j, p, q, ij, hp, hq, heldp, heldq⟩ := exists_two_below_extension plain full wfu
    rw [same _ hp] at heldp
    rw [same _ hq] at heldq
    exact prefix_of_prefix_parting ij (prefix_of_lookup_short heldp) (prefix_of_lookup_short heldq)
  have h₁ := below plain full wfv same
  have h₂ := below plain' full' wfv' fun p hp => (same p hp).symm
  exact h₂.eq_of_length (Nat.le_antisymm h₂.length_le h₁.length_le)

/-- What may sit in slot 16 is read at the end of the key. -/
theorem slot_eq {a b : HexNode} (sa : Slot a) (sb : Slot b) (same : a.lookup [] = b.lookup []) :
    a = b := by
  rcases sa with rfl | ⟨w, rfl⟩ <;> rcases sb with rfl | ⟨w', rfl⟩
  · rfl
  · simp [lookup_value] at same
  · simp [lookup_value] at same
  · simp_all [lookup_value]

end Same

/-- Two nodes of the shape that hold the same value at every stored key are
the same node. The induction is on the first node, with a case split on the
kind of the second. -/
theorem eq_of_lookup_eq (n : HexNode) : ∀ m : HexNode, n.Wf → m.Wf →
    (∀ p, Terminated p → n.lookup p = m.lookup p) → n = m := by
  induction n with
  | nil =>
    intro m _ wfm same
    exact (eq_nil_of_lookup_none wfm fun p hp => (same p hp).symm).symm
  | value _ => intro _ wf; exact absurd wf id
  | hash _ => intro _ wf; exact absurd wf id
  | short k v ih =>
    intro m wf wfm same
    cases m with
    | nil => exact eq_nil_of_lookup_none wf same
    | value _ => exact absurd wfm id
    | hash _ => exact absurd wfm id
    | full cs => exact absurd same (not_same_short_full wf wfm)
    | short k' v' =>
      rcases wf with ⟨leaf, w, rfl⟩ | ⟨_, plain, full, wfv⟩ <;>
        rcases wfm with ⟨leaf', w', rfl⟩ | ⟨_, plain', full', wfv'⟩
      · -- two leaves: each holds its one value at its key
        have at_k := same k leaf
        rw [lookup_leaf, lookup_leaf, if_pos rfl] at at_k
        by_cases e : k = k'
        · subst e
          simp_all
        · simp [e] at at_k
      · exact absurd same (not_same_leaf_extension plain' full' wfv')
      · exact absurd (fun p hp => (same p hp).symm) (not_same_leaf_extension plain full wfv)
      · -- two extensions: the same key, then the same branch below it
        have keys := key_eq_of_same plain full wfv plain' full' wfv' same
        subst keys
        have below : ∀ p, Terminated p → v.lookup p = v'.lookup p := by
          intro p hp
          have := same (k ++ p) ((terminated_append_iff plain).mpr hp)
          rwa [lookup_short_append_self, lookup_short_append_self] at this
        rw [ih v' wfv wfv' below]
  | full cs ih =>
    intro m wf wfm same
    cases m with
    | nil => exact eq_nil_of_lookup_none wf same
    | value _ => exact absurd wfm id
    | hash _ => exact absurd wfm id
    | short k v => exact absurd (fun p hp => (same p hp).symm) (not_same_short_full wfm wf)
    | full cs' =>
      -- child by child: slot 16 holds the value at the end of the key
      congr 1
      funext i
      by_cases h16 : i = 16
      · subst h16
        exact slot_eq wf.1 wfm.1 (same [16] .term)
      · refine ih i (cs' i) (wf.2.1 i h16) (wfm.2.1 i h16) fun p hp => ?_
        exact same (i :: p) (hp.cons_of_ne h16)

end FiscoBcos.Trie
