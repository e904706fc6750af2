import FiscoBcos.Trie.Trie
import Mathlib

/-!
# What a trie stores

The abstract layer of the trie: `Node.lookup` reads the value a node holds
at a HEX key, so that a node denotes a finite map from stored keys to
values, and `Node.Wf` is the shape `insert` and `delete` keep an in-memory
trie in (a leaf's key is a stored key, an extension leads to a branch, a
branch has two children, its slot 16 holds a value or nothing).

On that shape `tryGet` is `lookup` (`tryGetWith_wf`), and no hash node is
met, so the budget of resolutions plays no part.
-/

namespace FiscoBcos.Trie

namespace Node

variable {K : Type}

/-- A full node. -/
def isFull : Node K → Bool
  | .full _ => true
  | _ => false

/-- The set children of a full node. -/
def nonNil (cs : Fin 17 → Node K) : List (Fin 17) :=
  (List.finRange 17).filter fun i => !(cs i).isNil

/-- The value a node of a live trie holds at a HEX key below it. -/
def lookup : HexNode → List Nibble → Option (List UInt8)
  | .nil, _ => none
  | .value v, p => if p = [] then some v else none
  | .short k v, p => if k <+: p then lookup v (p.drop k.length) else none
  | .full _, [] => none
  | .full cs, i :: p => lookup (cs i) p
  | .hash _, _ => none

/-- The shape `insert` and `delete` keep a trie in: a short node is a leaf
(a stored key to a value) or an extension (plain nibbles to a branch); a
full node has two children, a value or nothing in slot 16, and subtries in
the others. -/
def Wf : HexNode → Prop
  | .nil => True
  | .short k v => (Terminated k ∧ ∃ w, v = .value w) ∨ (k ≠ [] ∧ Plain k ∧ v.isFull ∧ Wf v)
  | .full cs => (cs 16 = .nil ∨ ∃ w, cs 16 = .value w) ∧ (∀ i, i ≠ 16 → Wf (cs i)) ∧
      2 ≤ (nonNil cs).length
  | .value _ => False
  | .hash _ => False

@[simp] theorem lookup_nil (p : List Nibble) : lookup .nil p = none := rfl

theorem lookup_value (v : List UInt8) (p : List Nibble) :
    lookup (.value v) p = if p = [] then some v else none := rfl

theorem lookup_short (k : List Nibble) (v : HexNode) (p : List Nibble) :
    lookup (.short k v) p = if k <+: p then lookup v (p.drop k.length) else none := rfl

/-- Below a short node, a key is read past the node's key. -/
theorem lookup_short_append_self (k : List Nibble) (v : HexNode) (p : List Nibble) :
    lookup (.short k v) (k ++ p) = lookup v p := by
  rw [lookup_short, if_pos (List.prefix_append k p), List.drop_left]

@[simp] theorem lookup_full_cons (cs : Fin 17 → HexNode) (i : Nibble) (p : List Nibble) :
    lookup (.full cs) (i :: p) = lookup (cs i) p := rfl

@[simp] theorem lookup_full_nil (cs : Fin 17 → HexNode) : lookup (.full cs) [] = none := rfl

@[simp] theorem wf_nil : Wf (.nil : HexNode) := trivial

/-- A leaf holds its value at its key and nowhere else. -/
theorem lookup_leaf (k : List Nibble) (w : List UInt8) (p : List Nibble) :
    lookup (.short k (.value w)) p = if p = k then some w else none := by
  rw [lookup_short, lookup_value]
  by_cases pre : k <+: p
  · obtain ⟨r, rfl⟩ := pre
    simp
  · have : p ≠ k := fun e => pre (e ▸ List.prefix_refl k)
    simp [pre, this]

end Node

open Node

/-- `insertNil` puts a node below a key. -/
theorem lookup_insertNil (q : List Nibble) (n : HexNode) (p : List Nibble) :
    lookup (insertNil q n) p = if q <+: p then lookup n (p.drop q.length) else none := by
  unfold insertNil
  by_cases hq : q = []
  · subst hq; simp
  · rw [if_neg hq, lookup_short]

/-- A value below a key is held at exactly that key. -/
theorem lookup_insertNil_value (q : List Nibble) (w : List UInt8) (p : List Nibble) :
    lookup (insertNil q (.value w)) p = if p = q then some w else none := by
  unfold insertNil
  by_cases hq : q = []
  · subst hq; rfl
  · rw [if_neg hq]; exact lookup_leaf q w p

/-- Stored keys with a common prefix: what follows the prefix in one is a
prefix of what follows in the other only when they are equal. -/
theorem Terminated.prefix_iff {k p : List Nibble} (hk : Terminated k) (hp : Terminated p) :
    k <+: p ↔ p = k := by
  constructor
  · rintro ⟨r, rfl⟩
    rw [hk.eq_nil_of_append hp, List.append_nil]
  · rintro rfl
    exact List.prefix_refl _

/-! ## Lookup -/

/-- The check of `tryGet` on a short node is the prefix test. -/
theorem short_mismatch_iff {k key : List Nibble} {pos : Nat} (hpos : pos ≤ key.length) :
    (key.length < pos + k.length ∨ k ≠ (key.drop pos).take k.length) ↔ ¬k <+: key.drop pos := by
  rw [List.prefix_iff_eq_take]
  constructor
  · rintro (short | ne) e
    · have := congrArg List.length e
      simp only [List.length_take, List.length_drop] at this
      omega
    · exact ne e
  · exact .inr

theorem getElem?_of_drop_eq_cons {key rest : List Nibble} {pos : Nat} {i : Nibble}
    (h : key.drop pos = i :: rest) : key[pos]? = some i := by
  have := congrArg List.head? h
  simpa [List.head?_drop] using this

/-- On an in-memory trie, `tryGet` reads `lookup` and resolves nothing. -/
theorem tryGetWith_wf (get : HexNode → Nat → GetResult) (t : Trie) (key : List Nibble) :
    ∀ (n : HexNode) (pos : Nat), n.Wf → Terminated (key.drop pos) →
      t.tryGetWith get key n pos = .ok (n.lookup (key.drop pos), n, false) := by
  intro n
  induction n with
  | nil => intro pos _ _; rfl
  | value _ => intro _ wf; exact absurd wf id
  | hash _ => intro _ wf; exact absurd wf id
  | short k v ih =>
    intro pos wf hterm
    have hpos : pos ≤ key.length := by
      have := hterm.ne_nil; rw [Ne, List.drop_eq_nil_iff] at this; omega
    rw [Trie.tryGetWith_short, lookup_short]
    by_cases pre : k <+: key.drop pos
    · rw [if_neg (by rwa [short_mismatch_iff hpos, not_not]), if_pos pre, List.drop_drop]
      rcases wf with ⟨leaf, w, rfl⟩ | ⟨_, plain, _, wfv⟩
      · -- a leaf: the key ends here
        have rest : key.drop (pos + k.length) = [] := by
          rw [← List.drop_drop, (leaf.prefix_iff hterm).mp pre, List.drop_length]
        simp [Trie.tryGetWith_value, rest, lookup_value]
      · -- an extension: the branch below is read with the rest of the key
        obtain ⟨r, hr⟩ := pre
        have termRest : Terminated (key.drop (pos + k.length)) := by
          rw [← List.drop_drop, ← hr, List.drop_left]
          exact (terminated_append_iff plain).mp (hr ▸ hterm)
        simp [ih (pos + k.length) wfv termRest]
    · rw [if_pos (by rwa [short_mismatch_iff hpos]), if_neg pre]
  | full cs ih =>
    intro pos wf hterm
    obtain ⟨slot, subtries, _⟩ := wf
    obtain ⟨i, rest, hi⟩ := List.exists_cons_of_ne_nil hterm.ne_nil
    have next : key.drop (pos + 1) = rest := by
      rw [← List.drop_drop, hi, List.drop_one, List.tail_cons]
    rw [Trie.tryGetWith_full_some get t key cs (getElem?_of_drop_eq_cons hi), hi, lookup_full_cons]
    by_cases h16 : i = 16
    · -- slot 16: the key ends with the terminator
      subst h16
      have : rest = [] := by
        rw [hi] at hterm
        rcases Iff.mp terminated_cons_iff hterm with ⟨_, e⟩ | ⟨lt, _⟩
        · exact e
        · exact absurd lt (by decide)
      subst this
      rcases slot with e | ⟨w, e⟩ <;> simp [e, Trie.tryGetWith_nil, Trie.tryGetWith_value, lookup_value]
    · have termRest : Terminated rest := by
        rw [hi] at hterm
        rcases Iff.mp terminated_cons_iff hterm with ⟨e, _⟩ | ⟨_, h⟩
        · exact absurd e h16
        · exact h
      simp [next, ih i (pos + 1) (subtries i h16) (next ▸ termRest)]

end FiscoBcos.Trie
