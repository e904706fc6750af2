import FiscoBcos.Trie.Map
import Mathlib

/-!
# Insertion and deletion keep the trie a map

`insert` and `delete` of `trie.go`, on a trie of the shape `Node.Wf`: each
returns a trie of that shape holding the map with the key set or removed
(`InsertSpec`, `DeleteSpec`), and reports an unchanged node when nothing
changed. The proofs follow the recursion of the two functions: a case per
node kind, and for a short node a case for the whole key matching and one
for the key leaving it, where insertion branches out and deletion leaves the
node alone.
-/

namespace FiscoBcos.Trie

open Node

/-! ## Shape lemmas -/

theorem Terminated.of_cons {x : Nibble} {p : List Nibble} (h : Terminated (x :: p)) (hx : x ≠ 16) :
    Terminated p := by
  rcases Iff.mp terminated_cons_iff h with ⟨e, _⟩ | ⟨_, h⟩
  · exact absurd e hx
  · exact h

theorem Terminated.eq_nil_of_cons_term {p : List Nibble} (h : Terminated (16 :: p)) : p = [] := by
  rcases Iff.mp terminated_cons_iff h with ⟨_, e⟩ | ⟨lt, _⟩
  · exact e
  · exact absurd lt (by decide)

theorem Plain.ne_term {x : Nibble} {p : List Nibble} (h : Plain (x :: p)) : x ≠ 16 := by
  have := (Iff.mp plain_cons h).1
  rintro rfl
  exact absurd this (by decide)

theorem Terminated.not_plain {p : List Nibble} (h : Terminated p) : ¬Plain p := by
  obtain ⟨q, _, rfl⟩ := Iff.mp terminated_iff h
  intro plain
  exact absurd (Iff.mp plain_append plain).2 (by simp)

theorem insertNil_ne_nil {q : List Nibble} {n : HexNode} (hn : n ≠ .nil) : insertNil q n ≠ .nil := by
  unfold insertNil; split <;> simp_all

/-- Two set children make a branch. -/
theorem two_le_length_nonNil {cs : Fin 17 → HexNode} {i j : Fin 17} (ne : i ≠ j)
    (hi : cs i ≠ .nil) (hj : cs j ≠ .nil) : 2 ≤ (nonNil cs).length := by
  have sub : [i, j] ⊆ nonNil cs := by
    intro x hx
    simp only [List.mem_cons, List.not_mem_nil, or_false] at hx
    rcases hx with rfl | rfl <;> simp [nonNil, *]
  exact (List.subperm_of_subset (by simp [ne]) sub).length_le

/-- Setting a child to a node keeps every child that was set. -/
theorem length_nonNil_update_le (cs : Fin 17 → HexNode) (k : Fin 17) {nn : HexNode} (hn : nn ≠ .nil) :
    (nonNil cs).length ≤ (nonNil (Function.update cs k nn)).length := by
  apply List.Sublist.length_le
  apply List.monotone_filter_right
  intro i hi
  by_cases e : i = k
  · subst e; simpa [isNil_iff] using hn
  · simpa [e] using hi

/-- A short node over a longer key: the first part of the key is matched
first. -/
theorem lookup_short_append (c q : List Nibble) (n : HexNode) (p : List Nibble) :
    lookup (.short (c ++ q) n) p = if c <+: p then lookup (.short q n) (p.drop c.length) else none := by
  simp only [lookup_short]
  by_cases hc : c <+: p
  · obtain ⟨s, rfl⟩ := hc
    have drops : (c ++ s).drop (c ++ q).length = s.drop q.length := by
      rw [List.length_append, ← List.drop_drop, List.drop_left]
    simp only [List.prefix_append, if_true, List.prefix_append_right_inj, List.drop_left, drops]
  · have : ¬c ++ q <+: p := fun h => hc ((List.prefix_append c q).trans h)
    simp [hc, this]

theorem lookup_short_cons (i : Nibble) (b : List Nibble) (n : HexNode) (x : Nibble) (s : List Nibble) :
    lookup (.short (i :: b) n) (x :: s) = if x = i then lookup (insertNil b n) s else none := by
  rw [lookup_short, lookup_insertNil]
  by_cases e : x = i
  · subst e; simp [List.cons_prefix_cons]
  · simp [List.cons_prefix_cons, Ne.symm e, e]

/-- What may sit in slot 16 of a branch: a value or nothing. -/
def Slot (n : HexNode) : Prop := n = .nil ∨ ∃ w, n = .value w

/-- Below a plain prefix, the rest of a short node's key keeps the shape. -/
theorem wf_short_of_append {c q : List Nibble} {n : HexNode} (hc : Plain c) (hq : q ≠ [])
    (wf : (Node.short (c ++ q) n).Wf) : (Node.short q n).Wf := by
  rcases wf with ⟨leaf, w, rfl⟩ | ⟨_, plain, full, wfn⟩
  · exact .inl ⟨(terminated_append_iff hc).mp leaf, w, rfl⟩
  · exact .inr ⟨hq, (Iff.mp plain_append plain).2, full, wfn⟩

/-- What follows nibble `i` of a short node becomes child `i` of a branch:
the value itself in slot 16, a node of the shape elsewhere. -/
theorem child_of_short {i : Nibble} {b : List Nibble} {n : HexNode} (wf : (Node.short (i :: b) n).Wf) :
    (i = 16 → Slot (insertNil b n)) ∧ (i ≠ 16 → (insertNil b n).Wf) := by
  rcases wf with ⟨leaf, w, rfl⟩ | ⟨_, plain, full, wfn⟩
  · constructor
    · rintro rfl
      rw [leaf.eq_nil_of_cons_term]
      exact .inr ⟨w, rfl⟩
    · intro hi
      have hb := leaf.of_cons hi
      rw [insertNil, if_neg hb.ne_nil]
      exact .inl ⟨hb, w, rfl⟩
  · refine ⟨fun hi => absurd hi plain.ne_term, fun _ => ?_⟩
    unfold insertNil
    split_ifs with hb
    · exact wfn
    · exact .inr ⟨hb, (Iff.mp plain_cons plain).2, full, wfn⟩

/-- A branch whose children keep the shape, with two of them set. -/
theorem wf_full_of {cs : Fin 17 → HexNode} (slot : Slot (cs 16)) (sub : ∀ x, x ≠ 16 → (cs x).Wf)
    {i j : Fin 17} (ne : i ≠ j) (hi : cs i ≠ .nil) (hj : cs j ≠ .nil) : (Node.full cs).Wf :=
  ⟨slot, sub, two_le_length_nonNil ne hi hj⟩

/-! ## Insertion -/

/-- What `insert` of the value `v` at `key` into `n` returns: a node of the
shape, holding `v` at `key` and what `n` holds elsewhere, and `n` itself
when it reports no change. -/
structure InsertSpec (n : HexNode) (key : List Nibble) (v : List UInt8) (dirty : Bool) (n' : HexNode) :
    Prop where
  wf : n'.Wf
  ne_nil : n' ≠ .nil
  full : n.isFull → n'.isFull
  clean : dirty = false → n' = n
  lookup : ∀ p, Terminated p → n'.lookup p = if p = key then some v else n.lookup p

/-- The children of `branch`. -/
theorem branch_eq (i : Nibble) (b : List Nibble) (nv : HexNode) (j : Nibble) (a : List Nibble)
    (nw : HexNode) (ne : i ≠ j) : ∃ cs, branch i b nv j a nw = .full cs ∧ cs i = insertNil b nv ∧
      cs j = insertNil a nw ∧ ∀ x, x ≠ i → x ≠ j → cs x = .nil :=
  ⟨_, rfl, by simp [ne], by simp, fun x hi hj => by simp [hi, hj]⟩

/-- The branch-out: the short node's key and the new key go on after `c`
with two different nibbles. -/
theorem insertSpec_branch {c b a : List Nibble} {i j : Nibble} {nv : HexNode} {v : List UInt8}
    (ne : i ≠ j) (wf : (Node.short (c ++ i :: b) nv).Wf) (hkey : Terminated (c ++ j :: a)) :
    InsertSpec (.short (c ++ i :: b) nv) (c ++ j :: a) v true
      (insertNil c (branch i b nv j a (.value v))) := by
  have plainC : Plain c := plain_of_terminated_append hkey (List.cons_ne_nil _ _)
  have termJ : Terminated (j :: a) := (terminated_append_iff plainC).mp hkey
  obtain ⟨oldSlot, oldWf⟩ := child_of_short (wf_short_of_append plainC (List.cons_ne_nil _ _) wf)
  obtain ⟨newSlot, newWf⟩ := child_of_short (n := .value v) (.inl ⟨termJ, v, rfl⟩)
  have nvNe : nv ≠ .nil := by
    rcases wf with ⟨_, w, rfl⟩ | ⟨_, _, full, _⟩
    · simp
    · rintro rfl; simp [isFull] at full
  obtain ⟨cs, hb, csI, csJ, csOther⟩ := branch_eq i b nv j a (.value v) ne
  have wfBranch : (Node.full cs).Wf := by
    refine wf_full_of ?_ ?_ ne (csI ▸ insertNil_ne_nil nvNe) (csJ ▸ insertNil_ne_nil (by simp))
    · -- slot 16 holds the value of whichever key ends there
      by_cases hj : (16 : Nibble) = j
      · rw [hj, csJ]; exact newSlot hj.symm
      · by_cases hi : (16 : Nibble) = i
        · rw [hi, csI]; exact oldSlot hi.symm
        · rw [csOther 16 hi hj]; exact .inl rfl
    · intro x hx
      by_cases hj : x = j
      · rw [hj, csJ]; exact newWf (hj ▸ hx)
      · by_cases hi : x = i
        · rw [hi, csI]; exact oldWf (hi ▸ hx)
        · rw [csOther x hi hj]; trivial
  rw [hb]
  refine ⟨?_, insertNil_ne_nil (by simp), by simp [isFull], by simp, ?_⟩
  · unfold insertNil
    split_ifs with hc
    · exact wfBranch
    · exact .inr ⟨hc, plainC, rfl, wfBranch⟩
  · intro p hp
    rw [lookup_insertNil, lookup_short_append]
    by_cases hc : c <+: p
    · obtain ⟨s, rfl⟩ := hc
      have hs : Terminated s := (terminated_append_iff plainC).mp hp
      obtain ⟨x, s', rfl⟩ := List.exists_cons_of_ne_nil hs.ne_nil
      simp only [List.prefix_append, if_true, List.drop_left, lookup_full_cons, lookup_short_cons,
        List.append_cancel_left_eq, List.cons.injEq]
      by_cases hj : x = j
      · subst hj
        rw [csJ, lookup_insertNil_value]
        simp [Ne.symm ne]
      · by_cases hi : x = i
        · subst hi; simp [csI, hj]
        · simp [csOther x hi hj, hi, hj]
    · have : p ≠ c ++ j :: a := fun e => hc (e ▸ List.prefix_append c _)
      simp [hc, this]

/-- A new value at a leaf's own key. -/
theorem insertSpec_leaf {k : List Nibble} {w v : List UInt8} (leaf : Terminated k) (d : Bool)
    (clean : d = false → w = v) : InsertSpec (.short k (.value w)) k v d (.short k (.value v)) where
  wf := .inl ⟨leaf, v, rfl⟩
  ne_nil := by simp
  full := by simp [isFull]
  clean := fun h => by rw [clean h]
  lookup := fun p _ => by
    rw [lookup_leaf, lookup_leaf]
    split_ifs <;> rfl

/-- An insertion below an extension. -/
theorem insertSpec_extension {k r : List Nibble} {nv nn : HexNode} {v : List UInt8} {d : Bool}
    (ne : k ≠ []) (plain : Plain k) (spec : InsertSpec nv r v d nn) (full : nv.isFull) :
    InsertSpec (.short k nv) (k ++ r) v d (.short k nn) where
  wf := .inr ⟨ne, plain, spec.full full, spec.wf⟩
  ne_nil := by simp
  full := by simp [isFull]
  clean := fun h => by rw [spec.clean h]
  lookup := fun p hp => by
    rw [lookup_short, lookup_short]
    by_cases pre : k <+: p
    · obtain ⟨s, rfl⟩ := pre
      have hs : Terminated s := (terminated_append_iff plain).mp hp
      simp [spec.lookup s hs]
    · have : p ≠ k ++ r := fun e => pre (e ▸ List.prefix_append k r)
      simp [pre, this]

/-- An insertion below child `k` of a branch, not slot 16. -/
theorem insertSpec_child {cs : Fin 17 → HexNode} {k : Nibble} {r : List Nibble} {nn : HexNode}
    {v : List UInt8} {d : Bool} (wf : (Node.full cs).Wf) (hk : k ≠ 16)
    (spec : InsertSpec (cs k) r v d nn) :
    InsertSpec (.full cs) (k :: r) v d (.full (Function.update cs k nn)) where
  wf := by
    obtain ⟨slot, sub, two⟩ := wf
    refine ⟨by simpa [Ne.symm hk] using slot, fun x hx => ?_,
      two.trans (length_nonNil_update_le cs k spec.ne_nil)⟩
    by_cases e : x = k
    · subst e; simpa using spec.wf
    · simpa [e] using sub x hx
  ne_nil := by simp
  full := by simp [isFull]
  clean := fun h => by rw [spec.clean h, Function.update_eq_self]
  lookup := fun p hp => by
    obtain ⟨x, s, rfl⟩ := List.exists_cons_of_ne_nil hp.ne_nil
    rw [lookup_full_cons, lookup_full_cons]
    by_cases e : x = k
    · subst e
      simp [spec.lookup s (hp.of_cons hk)]
    · simp [e]

/-- A value in slot 16 of a branch: the key ends at the branch. -/
theorem insertSpec_slot {cs : Fin 17 → HexNode} {v : List UInt8} {d : Bool} (wf : (Node.full cs).Wf)
    (clean : d = false → cs 16 = .value v) :
    InsertSpec (.full cs) [16] v d (.full (Function.update cs 16 (.value v))) where
  wf := by
    obtain ⟨_, sub, two⟩ := wf
    refine ⟨.inr ⟨v, by simp⟩, fun x hx => by simpa [hx] using sub x hx,
      two.trans (length_nonNil_update_le cs 16 (by simp))⟩
  ne_nil := by simp
  full := by simp [isFull]
  clean := fun h => by rw [← clean h, Function.update_eq_self]
  lookup := fun p hp => by
    obtain ⟨x, s, rfl⟩ := List.exists_cons_of_ne_nil hp.ne_nil
    rw [lookup_full_cons, lookup_full_cons]
    by_cases e : x = 16
    · subst e
      rw [hp.eq_nil_of_cons_term]
      simp [lookup_value]
    · simp [e]

/-- `insert` of a value into a node of the shape. -/
theorem insertWith_spec (ins : HexNode → List Nibble → List Nibble → HexNode → UpdateResult)
    (t : Trie) (v : List UInt8) : ∀ (n : HexNode) (pre key : List Nibble), n.Wf → Terminated key →
      ∃ dirty n', t.insertWith ins n pre key (.value v) = .ok (dirty, n') ∧
        InsertSpec n key v dirty n' := by
  intro n
  induction n with
  | nil =>
    intro pre key _ hkey
    obtain ⟨k0, krest, rfl⟩ := List.exists_cons_of_ne_nil hkey.ne_nil
    refine ⟨true, .short (k0 :: krest) (.value v), rfl, ?_⟩
    exact ⟨.inl ⟨hkey, v, rfl⟩, by simp, by simp [isFull], by simp, fun p _ => by simp [lookup_leaf]⟩
  | value _ => intro _ _ wf; exact absurd wf id
  | hash _ => intro _ _ wf; exact absurd wf id
  | short nk nv ih =>
    intro pre key wf hkey
    obtain ⟨k0, krest, hk⟩ := List.exists_cons_of_ne_nil hkey.ne_nil
    subst hk
    simp only [Trie.insertWith]
    generalize k0 :: krest = key at hkey ⊢
    -- split both keys after their common part `c`
    obtain ⟨c, a', b', rfl, rfl, hm, diff⟩ := exists_prefixLen key nk
    rw [hm]
    by_cases whole : b' = []
    · -- the short node's whole key matches
      subst whole
      simp only [List.append_nil] at wf ⊢
      rw [if_pos trivial, List.take_left, List.drop_left]
      rcases wf with ⟨leaf, w, rfl⟩ | ⟨ne, plain, full, wfv⟩
      · have ha : a' = [] := leaf.eq_nil_of_append hkey
        subst ha
        rw [List.append_nil] at hkey ⊢
        simp only [Trie.insertWith]
        cases hwv : (w != v)
        · have : w = v := by simpa using hwv
          subst this
          exact ⟨false, _, rfl, insertSpec_leaf leaf false fun _ => rfl⟩
        · exact ⟨true, _, rfl, insertSpec_leaf leaf true (by simp)⟩
      · have termA : Terminated a' := (terminated_append_iff plain).mp hkey
        obtain ⟨d, nn, run, spec⟩ := ih (pre ++ c) a' wfv termA
        rw [run]
        cases d
        · have := spec.clean rfl
          subst this
          exact ⟨false, _, rfl, insertSpec_extension ne plain spec full⟩
        · exact ⟨true, _, rfl, insertSpec_extension ne plain spec full⟩
    · -- the key leaves the short node at nibble `c.length`
      obtain ⟨i, b, rfl⟩ := List.exists_cons_of_ne_nil whole
      rw [if_neg (by simp)]
      have ha : a' ≠ [] := by
        rintro rfl
        rw [List.append_nil] at hkey
        rcases wf with ⟨leaf, _⟩ | ⟨_, plain, _⟩
        · exact List.cons_ne_nil _ _ (hkey.eq_nil_of_append leaf)
        · exact hkey.not_plain (Iff.mp plain_append plain).1
      obtain ⟨j, a, rfl⟩ := List.exists_cons_of_ne_nil ha
      have ne : i ≠ j := fun e => diff j i rfl rfl e.symm
      have nibbleI : (c ++ i :: b)[c.length]? = some i := by simp
      have nibbleJ : (c ++ j :: a)[c.length]? = some j := by simp
      have dropI : (c ++ i :: b).drop (c.length + 1) = b := by simp
      have dropJ : (c ++ j :: a).drop (c.length + 1) = a := by simp
      rw [nibbleI, nibbleJ, dropI, dropJ, List.take_left]
      dsimp only
      have asNil : (if c.length = 0 then Except.ok (true, branch i b nv j a (.value v))
          else Except.ok (true, .short c (branch i b nv j a (.value v))) : UpdateResult) =
          .ok (true, insertNil c (branch i b nv j a (.value v))) := by
        unfold insertNil
        by_cases hc : c = [] <;> simp [hc]
      rw [asNil]
      exact ⟨true, _, rfl, insertSpec_branch ne wf hkey⟩
  | full cs ih =>
    intro pre key wf hkey
    obtain ⟨k0, krest, hk⟩ := List.exists_cons_of_ne_nil hkey.ne_nil
    subst hk
    simp only [Trie.insertWith]
    by_cases h16 : k0 = 16
    · -- the key ends in slot 16
      subst h16
      have hr : krest = [] := hkey.eq_nil_of_cons_term
      subst hr
      rcases wf.1 with e | ⟨w, e⟩
      · rw [e]
        exact ⟨true, _, rfl, insertSpec_slot wf (by simp)⟩
      · rw [e]
        cases hwv : (w != v)
        · have : w = v := by simpa using hwv
          subst this
          have spec := insertSpec_slot wf (d := false) (fun _ => e)
          rw [← e, Function.update_eq_self] at spec
          exact ⟨false, _, by simp [Trie.insertWith], spec⟩
        · exact ⟨true, _, by simp [Trie.insertWith, hwv], insertSpec_slot wf (by simp)⟩
    · obtain ⟨d, nn, run, spec⟩ := ih k0 (pre ++ [k0]) krest (wf.2.1 k0 h16) (hkey.of_cons h16)
      rw [run]
      cases d
      · have clean := spec.clean rfl
        have full := insertSpec_child wf h16 spec
        rw [clean, Function.update_eq_self] at full
        exact ⟨false, _, rfl, full⟩
      · exact ⟨true, _, rfl, insertSpec_child wf h16 spec⟩

/-! ## Deletion -/

section RemainingPos

variable {K : Type} (cs : Fin 17 → Node K)

/-- The step of the loop in `remainingPos`. -/
def remainingStep (pos : Int) (i : Fin 17) : Int :=
  if (cs i).isNil then pos else if pos = -1 then i.val else -2

/-- What the loop reports from the children it saw set. -/
def remainingOf : List (Fin 17) → Int
  | [] => -1
  | [i] => i.val
  | _ => -2

theorem foldl_remainingStep_two (l : List (Fin 17)) : l.foldl (remainingStep cs) (-2) = -2 := by
  induction l with
  | nil => rfl
  | cons i l ih => simp [List.foldl_cons, remainingStep, ih]

theorem foldl_remainingStep_one (l : List (Fin 17)) (i : Fin 17) :
    l.foldl (remainingStep cs) (i.val : Int) =
      if l.filter (fun x => !(cs x).isNil) = [] then (i.val : Int) else -2 := by
  induction l with
  | nil => rfl
  | cons x l ih =>
    have : (i.val : Int) ≠ -1 := by omega
    cases hx : (cs x).isNil
    · simp [List.foldl_cons, remainingStep, hx, this, foldl_remainingStep_two]
    · rw [List.foldl_cons, List.filter_cons_of_neg (by simp [hx])]
      simp only [remainingStep, hx, if_true]
      exact ih

theorem foldl_remainingStep (l : List (Fin 17)) :
    l.foldl (remainingStep cs) (-1) = remainingOf (l.filter fun x => !(cs x).isNil) := by
  induction l with
  | nil => rfl
  | cons x l ih =>
    cases hx : (cs x).isNil
    · simp only [List.foldl_cons, remainingStep, hx, Bool.false_eq_true, if_false, if_true,
        List.filter_cons, Bool.not_false]
      rw [foldl_remainingStep_one]
      cases (l.filter fun x => !(cs x).isNil) <;> simp [remainingOf]
    · simp [List.foldl_cons, remainingStep, hx, ih]

/-- `remainingPos` reads the set children. -/
theorem remainingPos_eq : remainingPos cs = remainingOf (Node.nonNil cs) :=
  foldl_remainingStep cs _

theorem mem_nonNil {cs : Fin 17 → Node K} {i : Fin 17} : i ∈ Node.nonNil cs ↔ cs i ≠ .nil := by
  simp [Node.nonNil]

/-- One set child: all others are nil. -/
theorem eq_nil_of_nonNil_eq_singleton {cs : Fin 17 → Node K} {i : Fin 17} (h : Node.nonNil cs = [i])
    {x : Fin 17} (hx : x ≠ i) : cs x = .nil := by
  by_contra ne
  have : x ∈ Node.nonNil cs := Iff.mpr mem_nonNil ne
  rw [h] at this
  exact hx (List.mem_singleton.mp this)

end RemainingPos

/-- What `delete` of `key` from `n` returns: a node of the shape, holding
nothing at `key` and what `n` holds elsewhere, never nil when `n` is a
branch (a branch holds two keys), and `n` itself when it reports no change. -/
structure DeleteSpec (n : HexNode) (key : List Nibble) (dirty : Bool) (n' : HexNode) : Prop where
  wf : n'.Wf
  ne_nil : n.isFull → n' ≠ .nil
  clean : dirty = false → n' = n
  lookup : ∀ p, Terminated p → n'.lookup p = if p = key then none else n.lookup p

/-- A key the node does not hold: nothing changes. -/
theorem deleteSpec_absent {n : HexNode} {key : List Nibble} (wf : n.Wf) (absent : n.lookup key = none) :
    DeleteSpec n key false n where
  wf := wf
  ne_nil := fun h => by cases n <;> simp_all [isFull]
  clean := fun _ => rfl
  lookup := fun p _ => by
    split_ifs with e
    · rw [e, absent]
    · rfl

/-- A leaf at its own key goes. -/
theorem deleteSpec_leaf (k : List Nibble) (w : List UInt8) :
    DeleteSpec (.short k (.value w)) k true .nil where
  wf := trivial
  ne_nil := by simp [isFull]
  clean := by simp
  lookup := fun p _ => by
    rw [lookup_leaf]
    split_ifs <;> rfl

/-- Below an extension, the lookup of a node where the branch was. -/
theorem lookup_below_extension {k r : List Nibble} {nv child : HexNode} (plain : Plain k)
    (below : ∀ s, Terminated s → child.lookup s = if s = r then none else nv.lookup s) (p : List Nibble)
    (hp : Terminated p) :
    (Node.short k child).lookup p = if p = k ++ r then none else (Node.short k nv).lookup p := by
  rw [lookup_short, lookup_short]
  by_cases pre : k <+: p
  · obtain ⟨s, rfl⟩ := pre
    simp [below s ((terminated_append_iff plain).mp hp)]
  · have : p ≠ k ++ r := fun e => pre (e ▸ List.prefix_append k r)
    simp [pre, this]

/-- A deletion below an extension that leaves a branch. -/
theorem deleteSpec_extension {k r : List Nibble} {nv child : HexNode} (ne : k ≠ []) (plain : Plain k)
    (spec : DeleteSpec nv r true child) (full : child.isFull) :
    DeleteSpec (.short k nv) (k ++ r) true (.short k child) where
  wf := .inr ⟨ne, plain, full, spec.wf⟩
  ne_nil := by simp [isFull]
  clean := by simp
  lookup := lookup_below_extension plain spec.lookup

/-- A deletion below an extension that leaves a short node: the two keys
join. -/
theorem deleteSpec_merge {k r ck : List Nibble} {nv cv : HexNode} (plain : Plain k)
    (spec : DeleteSpec nv r true (.short ck cv)) :
    DeleteSpec (.short k nv) (k ++ r) true (.short (k ++ ck) cv) where
  wf := by
    rcases spec.wf with ⟨leaf, w, rfl⟩ | ⟨ne, plainC, full, wfv⟩
    · exact .inl ⟨(terminated_append_iff plain).mpr leaf, w, rfl⟩
    · exact .inr ⟨by simp [ne], Iff.mpr plain_append ⟨plain, plainC⟩, full, wfv⟩
  ne_nil := by simp [isFull]
  clean := by simp
  lookup := fun p hp => by
    have joined : (Node.short (k ++ ck) cv).lookup p = (Node.short k (.short ck cv)).lookup p := by
      rw [lookup_short_append, lookup_short k (.short ck cv) p]
    rw [joined]
    exact lookup_below_extension plain spec.lookup p hp

/-- A branch with two set children keeps one when another changes. -/
theorem exists_other_of_two_le {cs : Fin 17 → HexNode} (two : 2 ≤ (nonNil cs).length) (k : Fin 17) :
    ∃ j, j ≠ k ∧ cs j ≠ .nil := by
  obtain ⟨a, b, rest, h⟩ : ∃ a b rest, nonNil cs = a :: b :: rest := by
    match e : nonNil cs, two with
    | a :: b :: rest, _ => exact ⟨a, b, rest, rfl⟩
  have nodup : (nonNil cs).Nodup := (List.nodup_finRange 17).filter _
  rw [h] at nodup
  have ab : a ≠ b := fun e => by simp [e] at nodup
  have ha : cs a ≠ .nil := Iff.mp mem_nonNil (by simp [h])
  have hb : cs b ≠ .nil := Iff.mp mem_nonNil (by simp [h])
  by_cases e : a = k
  · exact ⟨b, fun eb => ab (e.trans eb.symm), hb⟩
  · exact ⟨a, e, ha⟩

/-- A full node with one set child, collapsed as `delete` does it, holds what
the full node holds. -/
theorem collapse_spec (t : Trie) (pre : List Nibble) {cs : Fin 17 → HexNode} (slot : Slot (cs 16))
    (sub : ∀ x, x ≠ 16 → (cs x).Wf) (nonempty : nonNil cs ≠ []) :
    ∃ r, (if 0 ≤ remainingPos cs then t.collapseTo cs (Fin.ofNat 17 (remainingPos cs).toNat) pre
        else .ok (true, .full cs)) = .ok (true, r) ∧
      r.Wf ∧ r ≠ .nil ∧ ∀ p, r.lookup p = (Node.full cs).lookup p := by
  rw [remainingPos_eq]
  match h : nonNil cs with
  | [] => exact absurd h nonempty
  | i :: j :: rest =>
    -- two or more children: the branch stays
    refine ⟨.full cs, by simp [remainingOf], ⟨slot, sub, by simp [h]⟩, by simp, fun _ => rfl⟩
  | [i] =>
    have others : ∀ x, x ≠ i → cs x = .nil := fun x hx => eq_nil_of_nonNil_eq_singleton h hx
    have set : cs i ≠ .nil := Iff.mp mem_nonNil (by simp [h])
    have index : Fin.ofNat 17 ((i.val : Int).toNat) = i := by ext; simp
    simp only [remainingOf, Nat.cast_nonneg, if_true, index, Trie.collapseTo]
    have lookupOne : ∀ p, (Node.short [i] (cs i)).lookup p = (Node.full cs).lookup p := by
      intro p
      cases p with
      | nil => rfl
      | cons x s =>
        rw [lookup_short_cons, lookup_full_cons]
        by_cases e : x = i
        · subst e; simp [insertNil]
        · simp [e, others x e]
    by_cases h16 : i = 16
    · subst h16
      obtain ⟨w, hw⟩ : ∃ w, cs 16 = .value w := by
        rcases slot with e | hw
        · exact absurd e set
        · exact hw
      refine ⟨.short [16] (cs 16), by simp, ?_, by simp, lookupOne⟩
      rw [hw]
      exact .inl ⟨.term, w, rfl⟩
    · have wfi := sub i h16
      rw [if_pos h16]
      cases hc : cs i with
      | nil => exact absurd hc set
      | value _ => rw [hc] at wfi; exact absurd wfi id
      | hash _ => rw [hc] at wfi; exact absurd wfi id
      | short ck cv =>
        -- the child's key gets the nibble in front
        refine ⟨.short (i :: ck) cv, rfl, ?_, by simp, fun p => ?_⟩
        · rw [hc] at wfi
          rcases wfi with ⟨leaf, w, rfl⟩ | ⟨_, plain, full, wfv⟩
          · exact .inl ⟨.cons (lt_of_le_of_ne (Fin.le_last i) h16) leaf, w, rfl⟩
          · exact .inr ⟨by simp, Iff.mpr plain_cons ⟨lt_of_le_of_ne (Fin.le_last i) h16, plain⟩, full, wfv⟩
        · cases p with
          | nil => rfl
          | cons x s =>
            rw [lookup_short_cons, lookup_full_cons]
            by_cases e : x = i
            · subst e; rw [hc, lookup_insertNil, lookup_short]; simp
            · simp [e, others x e]
      | full gs =>
        refine ⟨.short [i] (cs i), by simp [Trie.resolve, hc], ?_, by simp, lookupOne⟩
        rw [hc]
        exact .inr ⟨by simp, Iff.mpr plain_cons ⟨lt_of_le_of_ne (Fin.le_last i) h16, plain_nil⟩, rfl,
          hc ▸ wfi⟩

/-- A deletion below child `k` of a branch: the branch stays, or collapses
onto its one remaining child. -/
theorem deleteSpec_full (t : Trie) (pre : List Nibble) {cs : Fin 17 → HexNode} {k : Nibble}
    {r : List Nibble} {m : HexNode} (wf : (Node.full cs).Wf)
    (slot : Slot (Function.update cs k m 16))
    (sub : ∀ x, x ≠ 16 → (Function.update cs k m x).Wf)
    (look : ∀ s, Terminated (k :: s) →
      m.lookup s = if s = r then none else (cs k).lookup s) :
    ∃ n', (if 0 ≤ remainingPos (Function.update cs k m) then
        t.collapseTo (Function.update cs k m)
          (Fin.ofNat 17 (remainingPos (Function.update cs k m)).toNat) pre
        else .ok (true, .full (Function.update cs k m))) = .ok (true, n') ∧
      DeleteSpec (.full cs) (k :: r) true n' := by
  have nonempty : nonNil (Function.update cs k m) ≠ [] := by
    obtain ⟨j, hj, set⟩ := exists_other_of_two_le wf.2.2 k
    intro h
    have : j ∈ nonNil (Function.update cs k m) := Iff.mpr mem_nonNil (by simpa [hj] using set)
    simp [h] at this
  obtain ⟨n', run, wf', ne', same⟩ := collapse_spec t pre slot sub nonempty
  refine ⟨n', run, wf', fun _ => ne', by simp, fun p hp => ?_⟩
  obtain ⟨x, s, rfl⟩ := List.exists_cons_of_ne_nil hp.ne_nil
  rw [same, lookup_full_cons, lookup_full_cons]
  by_cases e : x = k
  · subst e
    simp [look s hp]
  · simp [e]

/-- `delete` of a key from a node of the shape. -/
theorem deleteWith_spec (del : HexNode → List Nibble → List Nibble → UpdateResult) (t : Trie) :
    ∀ (n : HexNode) (pre key : List Nibble), n.Wf → Terminated key →
      ∃ dirty n', t.deleteWith del n pre key = .ok (dirty, n') ∧ DeleteSpec n key dirty n' := by
  intro n
  induction n with
  | nil => intro _ _ _ _; exact ⟨false, .nil, rfl, deleteSpec_absent trivial rfl⟩
  | value _ => intro _ _ wf; exact absurd wf id
  | hash _ => intro _ _ wf; exact absurd wf id
  | short nk nv ih =>
    intro pre key wf hkey
    simp only [Trie.deleteWith]
    obtain ⟨c, a', b', rfl, rfl, hm, _⟩ := exists_prefixLen key nk
    rw [hm]
    by_cases whole : b' = []
    · subst whole
      simp only [List.append_nil] at wf ⊢
      rw [if_neg (lt_irrefl _)]
      by_cases ends : a' = []
      · -- the key is the short node's key
        subst ends
        simp only [List.append_nil] at hkey ⊢
        rw [if_pos trivial]
        rcases wf with ⟨_, w, rfl⟩ | ⟨_, plain, _⟩
        · exact ⟨true, .nil, rfl, deleteSpec_leaf c w⟩
        · exact absurd plain hkey.not_plain
      · -- the key goes on below an extension
        rw [if_neg (by simp [ends])]
        rcases wf with ⟨leaf, _⟩ | ⟨ne, plain, full, wfv⟩
        · exact absurd (leaf.eq_nil_of_append hkey) ends
        · have termA := (terminated_append_iff plain).mp hkey
          rw [List.take_left, List.drop_left]
          obtain ⟨d, child, run, spec⟩ := ih (pre ++ c) a' wfv termA
          rw [run]
          cases d
          · have := spec.clean rfl
            subst this
            refine ⟨false, _, rfl, deleteSpec_absent (.inr ⟨ne, plain, full, wfv⟩) ?_⟩
            rw [lookup_short, if_pos (List.prefix_append c a'), List.drop_left]
            simpa using spec.lookup a' termA
          · have wfc := spec.wf
            cases child with
            | nil => exact absurd rfl (spec.ne_nil full)
            | value _ => exact absurd wfc id
            | hash _ => exact absurd wfc id
            | short ck cv => exact ⟨true, _, rfl, deleteSpec_merge plain spec⟩
            | full gs => exact ⟨true, _, rfl, deleteSpec_extension ne plain spec rfl⟩
    · -- the key leaves the short node: it is not in the trie
      obtain ⟨i, b, rfl⟩ := List.exists_cons_of_ne_nil whole
      rw [if_pos (by simp)]
      refine ⟨false, _, rfl, deleteSpec_absent wf ?_⟩
      rw [lookup_short, if_neg]
      intro pre
      have := Iff.mpr prefixLen_eq_length_iff pre
      rw [hm] at this
      simp at this
  | full cs ih =>
    intro pre key wf hkey
    obtain ⟨k, r, rfl⟩ := List.exists_cons_of_ne_nil hkey.ne_nil
    simp only [Trie.deleteWith]
    by_cases h16 : k = 16
    · -- the key ends in slot 16
      subst h16
      have hr : r = [] := hkey.eq_nil_of_cons_term
      subst hr
      rcases wf.1 with e | ⟨w, e⟩
      · rw [e]
        refine ⟨false, _, rfl, deleteSpec_absent wf (by simp [e])⟩
      · rw [e]
        simp only [Trie.deleteWith]
        obtain ⟨n', run, spec⟩ := deleteSpec_full t pre (k := 16) (m := .nil) (r := []) wf
          (by simp [Slot]) (fun x hx => by simpa [hx] using wf.2.1 x hx)
          (fun s hs => by simp [hs.eq_nil_of_cons_term])
        exact ⟨true, n', run, spec⟩
    · obtain ⟨d, nn, run, spec⟩ := ih k (pre ++ [k]) r (wf.2.1 k h16) (hkey.of_cons h16)
      rw [run]
      cases d
      · have := spec.clean rfl
        subst this
        refine ⟨false, _, rfl, deleteSpec_absent wf ?_⟩
        simpa using spec.lookup r (hkey.of_cons h16)
      · obtain ⟨n', run', spec'⟩ := deleteSpec_full t pre wf
          (by rw [Function.update_of_ne (Ne.symm h16)]; exact wf.1)
          (fun x hx => by
            by_cases e : x = k
            · subst e; simpa using spec.wf
            · simpa [e] using wf.2.1 x hx)
          (fun s hs => spec.lookup s (hs.of_cons h16))
        exact ⟨true, n', run', spec'⟩

end FiscoBcos.Trie
