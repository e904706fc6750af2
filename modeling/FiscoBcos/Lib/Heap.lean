import FiscoBcos.Lib.Except
import Mathlib

/-!
# container/heap

The algorithms of Go's `container/heap` (Go 1.12) over any `heap.Interface`:
`up`, `down`, `Push`, `Pop` and `Remove`. The interface's methods act on an
explicit state and may fail, as a Go method may panic.

`Refines` says that one implementation of the interface behaves as another
under an abstraction function on the states where an invariant holds, for the
calls the algorithms make (indices below `Len`). The algorithms then refine
each other too (`up_refines` to `remove_refines`), so what is proved about the
heap algorithms over a simple implementation carries over to any refinement.
-/

namespace GoHeap

/-- `heap.Interface`: `Len`, `Less` and `Swap` of `sort.Interface`, and `Push`
and `Pop`, as functions of the state. -/
structure Interface (σ β ε : Type) where
  Len : σ → Nat
  Less : σ → Nat → Nat → Except ε Bool
  Swap : σ → Int → Int → Except ε σ
  Push : σ → β → Except ε σ
  Pop : σ → Except ε (σ × β)

variable {σ τ β ε : Type} (h : Interface σ β ε)

/-- `up`: the element at `j` moves towards the root while it is less than its
parent. -/
def up (s : σ) (j : Nat) : Except ε σ :=
  let i := (j - 1) / 2
  if i = j then .ok s
  else do
    let less ← h.Less s j i
    if !less then .ok s
    else do
      let s ← h.Swap s i j
      up s i
termination_by j
decreasing_by omega

/-- The loop of `down`: the element at `i` moves towards the leaves below `n`
while its least child is less than it; the position it stops at. -/
def downLoop (s : σ) (i n : Nat) : Except ε (σ × Nat) :=
  if stop : n ≤ 2 * i + 1 then .ok (s, i)
  else do
    let right ← if 2 * i + 2 < n then h.Less s (2 * i + 2) (2 * i + 1) else pure false
    let j := if right then 2 * i + 2 else 2 * i + 1
    let less ← h.Less s j i
    if !less then .ok (s, i)
    else do
      let s ← h.Swap s i j
      downLoop s j n
termination_by n - i
decreasing_by all_goals (split <;> omega)

/-- `down`: whether the element moved. -/
def down (s : σ) (i0 n : Nat) : Except ε (σ × Bool) := do
  let (s, i) ← downLoop h s i0 n
  pure (s, i > i0)

/-- `heap.Push`. -/
def push (s : σ) (x : β) : Except ε σ := do
  let s ← h.Push s x
  up h s (h.Len s - 1)

/-- `heap.Pop`. -/
def pop (s : σ) : Except ε (σ × β) := do
  let n : Int := h.Len s - 1
  let s ← h.Swap s 0 n
  let (s, _) ← down h s 0 n.toNat
  h.Pop s

/-- `heap.Remove` up to its final `Pop`: unless it is last, the element at `i`
changes places with the last one, which is then sifted down, or up if it did
not move down. -/
def removeFix (s : σ) (i : Nat) : Except ε σ :=
  let n : Int := h.Len s - 1
  if n ≠ i then do
    let s ← h.Swap s i n
    let (s, moved) ← down h s i n.toNat
    if !moved then up h s i else pure s
  else pure s

/-- `heap.Remove`. -/
def remove (s : σ) (i : Nat) : Except ε (σ × β) := (removeFix h s i).bind h.Pop

/-! ## The equations of the loops -/

theorem up_root (s : σ) {j : Nat} (root : (j - 1) / 2 = j) : up h s j = .ok s := by
  rw [up]
  exact if_pos root

theorem up_step (s : σ) {j : Nat} (root : (j - 1) / 2 ≠ j) :
    up h s j = (h.Less s j ((j - 1) / 2)).bind fun less =>
      if !less then .ok s else (h.Swap s (((j - 1) / 2 : Nat) : Int) j).bind fun s => up h s ((j - 1) / 2) := by
  rw [up]
  exact if_neg root

theorem downLoop_stop (s : σ) {i n : Nat} (stop : n ≤ 2 * i + 1) : downLoop h s i n = .ok (s, i) := by
  rw [downLoop, dif_pos stop]

theorem downLoop_step (s : σ) {i n : Nat} (stop : ¬n ≤ 2 * i + 1) :
    downLoop h s i n =
      (if 2 * i + 2 < n then h.Less s (2 * i + 2) (2 * i + 1) else .ok false).bind fun right =>
        (h.Less s (if right then 2 * i + 2 else 2 * i + 1) i).bind fun less =>
          if !less then .ok (s, i)
          else (h.Swap s i ((if right then 2 * i + 2 else 2 * i + 1 : Nat) : Int)).bind fun s =>
            downLoop h s (if right then 2 * i + 2 else 2 * i + 1) n := by
  rw [downLoop, dif_neg stop]
  split <;> rfl

/-! ## Refinement -/

/-- `A` behaves as `B` through `abs` on the states where `inv` holds, for the
calls the algorithms make: indices below `Len`, `Push` of an element that `ok`
admits, and `Pop` on a non-empty state. Each method then succeeds on both
sides, with answers that agree. -/
structure Refines (A : Interface σ β ε) (B : Interface τ β ε) (abs : σ → τ) (inv : σ → Prop)
    (ok : σ → β → Prop) : Prop where
  len : ∀ s, inv s → A.Len s = B.Len (abs s)
  less : ∀ s i j, inv s → i < A.Len s → j < A.Len s →
    ∃ b, A.Less s i j = .ok b ∧ B.Less (abs s) i j = .ok b
  swap : ∀ s (i j : Nat), inv s → i < A.Len s → j < A.Len s →
    ∃ s', A.Swap s i j = .ok s' ∧ inv s' ∧ A.Len s' = A.Len s ∧ B.Swap (abs s) i j = .ok (abs s')
  push : ∀ s x, inv s → ok s x →
    ∃ s', A.Push s x = .ok s' ∧ inv s' ∧ A.Len s' = A.Len s + 1 ∧ B.Push (abs s) x = .ok (abs s')
  pop : ∀ s, inv s → 0 < A.Len s →
    ∃ s' x, A.Pop s = .ok (s', x) ∧ inv s' ∧ A.Len s' = A.Len s - 1 ∧ B.Pop (abs s) = .ok (abs s', x)

section Refinement

variable {A : Interface σ β ε} {B : Interface τ β ε} {abs : σ → τ} {inv : σ → Prop} {ok : σ → β → Prop}
  (R : Refines A B abs inv ok)
include R

theorem up_refines {s : σ} (hs : inv s) {j : Nat} (hj : j < A.Len s) :
    ∃ s', up A s j = .ok s' ∧ inv s' ∧ A.Len s' = A.Len s ∧ up B (abs s) j = .ok (abs s') := by
  induction j using Nat.strongRecOn generalizing s with
  | ind j ih =>
    by_cases root : (j - 1) / 2 = j
    · exact ⟨s, up_root A s root, hs, rfl, up_root B (abs s) root⟩
    · have parent : (j - 1) / 2 < j := by omega
      obtain ⟨less, ha, hb⟩ := R.less s j ((j - 1) / 2) hs hj (by omega)
      rw [up_step A s root, up_step B (abs s) root, ha, hb, Except.bind_ok_eq, Except.bind_ok_eq]
      cases less
      · exact ⟨s, rfl, hs, rfl, rfl⟩
      · obtain ⟨s1, hs1, inv1, len1, hb1⟩ := R.swap s ((j - 1) / 2) j hs (by omega) hj
        obtain ⟨s2, hs2, inv2, len2, hb2⟩ := ih _ parent inv1 (by omega)
        refine ⟨s2, ?_, inv2, len2.trans len1, ?_⟩
        · simp only [Bool.not_true, hs1, Except.bind_ok_eq, hs2]
          rfl
        · simp only [Bool.not_true, hb1, Except.bind_ok_eq, hb2]
          rfl

theorem downLoop_refines {s : σ} (hs : inv s) (i : Nat) {n : Nat} (hn : n ≤ A.Len s) :
    ∃ s' k, downLoop A s i n = .ok (s', k) ∧ inv s' ∧ A.Len s' = A.Len s ∧
      downLoop B (abs s) i n = .ok (abs s', k) := by
  by_cases stop : n ≤ 2 * i + 1
  · exact ⟨s, i, downLoop_stop A s stop, hs, rfl, downLoop_stop B (abs s) stop⟩
  · -- both sides read the same answer to which child is the lesser
    obtain ⟨right, ha, hb, inside⟩ : ∃ right,
        (if 2 * i + 2 < n then A.Less s (2 * i + 2) (2 * i + 1) else .ok false) = .ok right ∧
          (if 2 * i + 2 < n then B.Less (abs s) (2 * i + 2) (2 * i + 1) else .ok false) = .ok right ∧
          (right = true → 2 * i + 2 < n) := by
      by_cases both : 2 * i + 2 < n
      · obtain ⟨right, ha, hb⟩ := R.less s (2 * i + 2) (2 * i + 1) hs (by omega) (by omega)
        rw [if_pos both, if_pos both]
        exact ⟨right, ha, hb, fun _ => both⟩
      · rw [if_neg both, if_neg both]
        exact ⟨false, rfl, rfl, nofun⟩
    set j := if right then 2 * i + 2 else 2 * i + 1 with hj
    have child : i < j ∧ j < n := by
      rw [hj]
      split
      · exact ⟨by omega, inside ‹_›⟩
      · omega
    obtain ⟨less, la, lb⟩ := R.less s j i hs (by omega) (by omega)
    rw [downLoop_step A s stop, downLoop_step B (abs s) stop, ha, hb, Except.bind_ok_eq, Except.bind_ok_eq, ← hj,
      la, lb, Except.bind_ok_eq, Except.bind_ok_eq]
    cases less
    · exact ⟨s, i, rfl, hs, rfl, rfl⟩
    · obtain ⟨s1, sa, inv1, len1, sb⟩ := R.swap s i j hs (by omega) (by omega)
      obtain ⟨s2, k, da, inv2, len2, db⟩ := downLoop_refines inv1 j (n := n) (by omega)
      refine ⟨s2, k, ?_, inv2, len2.trans len1, ?_⟩
      · simp only [Bool.not_true, sa, Except.bind_ok_eq, da]
        rfl
      · simp only [Bool.not_true, sb, Except.bind_ok_eq, db]
        rfl
termination_by n - i
decreasing_by omega

theorem down_refines {s : σ} (hs : inv s) (i : Nat) {n : Nat} (hn : n ≤ A.Len s) :
    ∃ s' moved, down A s i n = .ok (s', moved) ∧ inv s' ∧ A.Len s' = A.Len s ∧
      down B (abs s) i n = .ok (abs s', moved) := by
  obtain ⟨s', k, da, inv', len', db⟩ := downLoop_refines R hs i hn
  exact ⟨s', decide (k > i), by simp [down, da], inv', len', by simp [down, db]⟩

theorem push_refines {s : σ} (hs : inv s) {x : β} (hx : ok s x) :
    ∃ s', push A s x = .ok s' ∧ inv s' ∧ A.Len s' = A.Len s + 1 ∧ push B (abs s) x = .ok (abs s') := by
  obtain ⟨s1, pa, inv1, len1, pb⟩ := R.push s x hs hx
  obtain ⟨s2, ua, inv2, len2, ub⟩ := up_refines R inv1 (j := A.Len s1 - 1) (by omega)
  refine ⟨s2, ?_, inv2, by omega, ?_⟩
  · simp [push, pa, ua]
  · simp only [push, Except.bind_eq_bind, pb, Except.bind_ok_eq, ← R.len s1 inv1, ub]

theorem pop_refines {s : σ} (hs : inv s) (nonempty : 0 < A.Len s) :
    ∃ s' x, pop A s = .ok (s', x) ∧ inv s' ∧ A.Len s' = A.Len s - 1 ∧ pop B (abs s) = .ok (abs s', x) := by
  have last : ((A.Len s : Int) - 1) = ((A.Len s - 1 : Nat) : Int) := by omega
  obtain ⟨s1, sa, inv1, len1, sb⟩ := R.swap s 0 (A.Len s - 1) hs nonempty (by omega)
  replace sa : A.Swap s 0 ((A.Len s - 1 : Nat) : Int) = .ok s1 := sa
  replace sb : B.Swap (abs s) 0 ((A.Len s - 1 : Nat) : Int) = .ok (abs s1) := sb
  obtain ⟨s2, moved, da, inv2, len2, db⟩ := down_refines R inv1 0 (n := A.Len s - 1) (by omega)
  obtain ⟨s3, x, pa, inv3, len3, pb⟩ := R.pop s2 inv2 (by omega)
  refine ⟨s3, x, ?_, inv3, by omega, ?_⟩
  · simp only [pop, Except.bind_eq_bind, last, sa, Except.bind_ok_eq, Int.toNat_natCast, da, pa]
  · simp only [pop, Except.bind_eq_bind, ← R.len s hs, last, sb, Except.bind_ok_eq, Int.toNat_natCast, db, pb]

theorem removeFix_refines {s : σ} (hs : inv s) {i : Nat} (hi : i < A.Len s) :
    ∃ s', removeFix A s i = .ok s' ∧ inv s' ∧ A.Len s' = A.Len s ∧ removeFix B (abs s) i = .ok (abs s') := by
  unfold removeFix
  rw [← R.len s hs]
  by_cases last : ((A.Len s : Int) - 1) = i
  · rw [if_neg (not_not_intro last), if_neg (not_not_intro last)]
    exact ⟨s, rfl, hs, rfl, rfl⟩
  · rw [if_pos last, if_pos last]
    have cast : ((A.Len s : Int) - 1) = ((A.Len s - 1 : Nat) : Int) := by omega
    rw [cast, Int.toNat_natCast]
    obtain ⟨s1, sa, inv1, len1, sb⟩ := R.swap s i (A.Len s - 1) hs hi (by omega)
    obtain ⟨s2, moved, da, inv2, len2, db⟩ := down_refines R inv1 i (n := A.Len s - 1) (by omega)
    simp only [Except.bind_eq_bind, sa, sb, Except.bind_ok_eq, da, db]
    cases moved
    · obtain ⟨s3, ua, inv3, len3, ub⟩ := up_refines R inv2 (j := i) (by omega)
      exact ⟨s3, ua, inv3, by omega, ub⟩
    · exact ⟨s2, rfl, inv2, by omega, rfl⟩

theorem remove_refines {s : σ} (hs : inv s) {i : Nat} (hi : i < A.Len s) :
    ∃ s' x, remove A s i = .ok (s', x) ∧ inv s' ∧ A.Len s' = A.Len s - 1 ∧
      remove B (abs s) i = .ok (abs s', x) := by
  obtain ⟨s2, fa, inv2, len2, fb⟩ := removeFix_refines R hs hi
  obtain ⟨s3, x, pa, inv3, len3, pb⟩ := R.pop s2 inv2 (by omega)
  exact ⟨s3, x, by rw [remove, fa, Except.bind_ok_eq, pa], inv3, by omega, by rw [remove, fb, Except.bind_ok_eq, pb]⟩

/-- `heap.Pop` ends with the interface's `Pop` on a non-empty state where the
invariant holds. -/
theorem pop_last {s : σ} (hs : inv s) (nonempty : 0 < A.Len s) :
    ∃ s2, inv s2 ∧ 0 < A.Len s2 ∧ pop A s = A.Pop s2 := by
  have last : ((A.Len s : Int) - 1) = ((A.Len s - 1 : Nat) : Int) := by omega
  obtain ⟨s1, sa, inv1, len1, -⟩ := R.swap s 0 (A.Len s - 1) hs nonempty (by omega)
  replace sa : A.Swap s 0 ((A.Len s - 1 : Nat) : Int) = .ok s1 := sa
  obtain ⟨s2, moved, da, inv2, len2, -⟩ := down_refines R inv1 0 (n := A.Len s - 1) (by omega)
  refine ⟨s2, inv2, by omega, ?_⟩
  simp only [pop, Except.bind_eq_bind, last, sa, Except.bind_ok_eq, Int.toNat_natCast, da]

/-- `heap.Remove` ends with the interface's `Pop` on a non-empty state where
the invariant holds. -/
theorem remove_last {s : σ} (hs : inv s) {i : Nat} (hi : i < A.Len s) :
    ∃ s2, inv s2 ∧ 0 < A.Len s2 ∧ remove A s i = A.Pop s2 := by
  obtain ⟨s2, fa, inv2, len2, -⟩ := removeFix_refines R hs hi
  exact ⟨s2, inv2, by omega, by rw [remove, fa, Except.bind_ok_eq]⟩

end Refinement

/-- `P` holds after each call the algorithms make from a state where `inv` and
`P` hold, with `Push` of an element that `ok` admits. -/
structure Preserves (A : Interface σ β ε) (inv P : σ → Prop) (ok : σ → β → Prop) : Prop where
  swap : ∀ s s' (i j : Nat), inv s → P s → i < A.Len s → j < A.Len s → A.Swap s i j = .ok s' → P s'
  push : ∀ s s' x, inv s → P s → ok s x → A.Push s x = .ok s' → P s'
  pop : ∀ s s' x, inv s → P s → 0 < A.Len s → A.Pop s = .ok (s', x) → P s'

/-- A refinement keeps holding with an invariant that its calls preserve. -/
theorem Refines.and {A : Interface σ β ε} {B : Interface τ β ε} {abs : σ → τ} {inv P : σ → Prop}
    {ok ok' : σ → β → Prop} (R : Refines A B abs inv ok) (hP : Preserves A inv P ok') :
    Refines A B abs (fun s => inv s ∧ P s) (fun s x => ok s x ∧ ok' s x) where
  len s hs := R.len s hs.1
  less s i j hs hi hj := R.less s i j hs.1 hi hj
  swap s i j hs hi hj := by
    obtain ⟨s', sa, inv', len', sb⟩ := R.swap s i j hs.1 hi hj
    exact ⟨s', sa, ⟨inv', hP.swap s s' i j hs.1 hs.2 hi hj sa⟩, len', sb⟩
  push s x hs hx := by
    obtain ⟨s', sa, inv', len', sb⟩ := R.push s x hs.1 hx.1
    exact ⟨s', sa, ⟨inv', hP.push s s' x hs.1 hs.2 hx.2 sa⟩, len', sb⟩
  pop s hs nonempty := by
    obtain ⟨s', x, sa, inv', len', sb⟩ := R.pop s hs.1 nonempty
    exact ⟨s', x, sa, ⟨inv', hP.pop s s' x hs.1 hs.2 nonempty sa⟩, len', sb⟩

/-- Refinements compose: what refines a refinement of `C` refines `C`. -/
theorem Refines.trans {υ : Type} {A : Interface σ β ε} {B : Interface τ β ε} {C : Interface υ β ε}
    {abs : σ → τ} {abs' : τ → υ} {inv : σ → Prop} {inv' : τ → Prop} {ok : σ → β → Prop} {ok' : τ → β → Prop}
    (R : Refines A B abs inv ok) (R' : Refines B C abs' inv' ok') :
    Refines A C (abs' ∘ abs) (fun s => inv s ∧ inv' (abs s)) (fun s x => ok s x ∧ ok' (abs s) x) where
  len s hs := (R.len s hs.1).trans (R'.len (abs s) hs.2)
  less s i j hs hi hj := by
    obtain ⟨b, ha, hb⟩ := R.less s i j hs.1 hi hj
    obtain ⟨b', hb', hc⟩ := R'.less (abs s) i j hs.2 (R.len s hs.1 ▸ hi) (R.len s hs.1 ▸ hj)
    rw [hb] at hb'
    exact ⟨b, ha, Except.ok.inj hb' ▸ hc⟩
  swap s i j hs hi hj := by
    obtain ⟨s', sa, inv1, len1, sb⟩ := R.swap s i j hs.1 hi hj
    obtain ⟨t', tb, inv2, -, tc⟩ := R'.swap (abs s) i j hs.2 (R.len s hs.1 ▸ hi) (R.len s hs.1 ▸ hj)
    rw [sb] at tb
    cases tb
    exact ⟨s', sa, ⟨inv1, inv2⟩, len1, tc⟩
  push s x hs hx := by
    obtain ⟨s', sa, inv1, len1, sb⟩ := R.push s x hs.1 hx.1
    obtain ⟨t', tb, inv2, -, tc⟩ := R'.push (abs s) x hs.2 hx.2
    rw [sb] at tb
    cases tb
    exact ⟨s', sa, ⟨inv1, inv2⟩, len1, tc⟩
  pop s hs nonempty := by
    obtain ⟨s', x, sa, inv1, len1, sb⟩ := R.pop s hs.1 nonempty
    obtain ⟨t', y, tb, inv2, -, tc⟩ := R'.pop (abs s) hs.2 (R.len s hs.1 ▸ nonempty)
    rw [sb] at tb
    cases tb
    exact ⟨s', x, sa, ⟨inv1, inv2⟩, len1, tc⟩

end GoHeap
