import FiscoBcos.Lib.Heap
import Mathlib

/-!
# The heap algorithms on an array

`container/heap` over an array that implements the interface as a slice does
(`arrayHeap`), with `Less` read through a key in a linear order. From a
heap-ordered array, `Push`, `Pop` and `Remove` succeed, keep the array
heap-ordered and a permutation of its elements, and `Pop` returns an element
of greatest key.

The sifts are proved with the invariants of a swap-based sift: `UpInv` (every
pair but the moving element and its parent in order, and the parent above the
moving element's children) and `DownInv` (every pair that does not have the
moving element as a parent in order, and the moving element's parent above its
children).
-/

namespace GoHeap

variable {β κ ε : Type}

/-- `heap.Interface` on an array, as a slice implements it: `Less` by `lt`,
`Swap` in place, `Push` and `Pop` at the end. A call outside the array fails
with `oob`. -/
def arrayHeap (lt : β → β → Bool) (oob : ε) : Interface (Array β) β ε where
  Len xs := xs.size
  Less xs i j := match xs[i]?, xs[j]? with
    | some x, some y => .ok (lt x y)
    | _, _ => .error oob
  Swap xs i j :=
    if 0 ≤ i ∧ 0 ≤ j ∧ i < xs.size ∧ j < xs.size then .ok (xs.swapIfInBounds i.toNat j.toNat) else .error oob
  Push xs x := .ok (xs.push x)
  Pop xs := match xs.back? with
    | some x => .ok (xs.pop, x)
    | none => .error oob

section ArrayHeap

variable (lt : β → β → Bool) (oob : ε)

theorem arrayHeap_less {xs : Array β} {i j : Nat} (hi : i < xs.size) (hj : j < xs.size) :
    (arrayHeap lt oob).Less xs i j = .ok (lt xs[i] xs[j]) := by
  simp [arrayHeap, hi, hj]

theorem arrayHeap_swap {xs : Array β} {i j : Nat} (hi : i < xs.size) (hj : j < xs.size) :
    (arrayHeap lt oob).Swap xs i j = .ok (xs.swapIfInBounds i j) := by
  simp [arrayHeap, hi, hj]

theorem arrayHeap_push (xs : Array β) (x : β) : (arrayHeap lt oob).Push xs x = .ok (xs.push x) := rfl

theorem arrayHeap_pop {xs : Array β} (nonempty : 0 < xs.size) :
    (arrayHeap lt oob).Pop xs = .ok (xs.pop, xs[xs.size - 1]) := by
  have last : xs[xs.size - 1]? = some xs[xs.size - 1] := Array.getElem?_eq_getElem (by omega)
  simp [arrayHeap, Array.back?_eq_getElem?, last]

end ArrayHeap

theorem getElem?_swapIfInBounds {xs : Array β} {i j : Nat} (hi : i < xs.size) (hj : j < xs.size) (k : Nat) :
    (xs.swapIfInBounds i j)[k]? = if k = i then xs[j]? else if k = j then xs[i]? else xs[k]? := by
  by_cases hk : k < xs.size
  · rw [Array.getElem?_eq_getElem (by simpa using hk), Array.getElem_swapIfInBounds]
    split_ifs <;> simp_all
  · have outside : k ≠ i ∧ k ≠ j := by omega
    rw [Array.getElem?_eq_none (by simpa using hk), if_neg outside.1, if_neg outside.2,
      Array.getElem?_eq_none (by omega)]

/-- A swap reads every position from its image under the transposition. -/
theorem getElem?_swapIfInBounds_eq {xs : Array β} {i j : Nat} (hi : i < xs.size) (hj : j < xs.size) (k : Nat) :
    (xs.swapIfInBounds i j)[k]? = xs[Equiv.swap i j k]? := by
  rw [getElem?_swapIfInBounds hi hj, Equiv.swap_apply_def]
  split_ifs <;> rfl

/-! ## Heap order over a key -/

section Order

variable [LinearOrder κ] (key : β → κ)

/-- The element at `c` is not above the one at `p`, where both exist. -/
def Below (xs : Array β) (c p : Nat) : Prop :=
  ∀ x y, xs[c]? = some x → xs[p]? = some y → key x ≤ key y

/-- The first `n` elements are heap-ordered: none is above its parent. -/
def Ordered (xs : Array β) (n : Nat) : Prop :=
  ∀ c, 0 < c → c < n → Below key xs c ((c - 1) / 2)

/-- The invariant of `up` at `j`: every pair but `j` and its parent in order,
and the parent of `j` above the children of `j`. -/
structure UpInv (xs : Array β) (n j : Nat) : Prop where
  except : ∀ c, 0 < c → c < n → c ≠ j → Below key xs c ((c - 1) / 2)
  grand : 0 < j → ∀ c, 0 < c → c < n → (c - 1) / 2 = j → Below key xs c ((j - 1) / 2)

/-- The invariant of `down` from `i0` at `i`: every pair that has neither `i`
as its child nor as its parent in order, the parent of `i` above the children
of `i`, and `i` below its parent once it has moved. -/
structure DownInv (xs : Array β) (n i0 i : Nat) : Prop where
  except : ∀ c, 0 < c → c < n → c ≠ i → (c - 1) / 2 ≠ i → Below key xs c ((c - 1) / 2)
  grand : 0 < i → ∀ c, 0 < c → c < n → (c - 1) / 2 = i → Below key xs c ((i - 1) / 2)
  moved : i ≠ i0 → 0 < i ∧ Below key xs i ((i - 1) / 2)

variable {key}

theorem below_of_le {xs : Array β} {c p : Nat} (hc : c < xs.size) (hp : p < xs.size)
    (le : key xs[c] ≤ key xs[p]) : Below key xs c p := by
  intro x y hx hy
  rw [Array.getElem?_eq_getElem hc, Option.some_inj] at hx
  rw [Array.getElem?_eq_getElem hp, Option.some_inj] at hy
  exact hx ▸ hy ▸ le

theorem Below.le {xs : Array β} {c p : Nat} (below : Below key xs c p) (hc : c < xs.size) (hp : p < xs.size) :
    key xs[c] ≤ key xs[p] :=
  below _ _ (Array.getElem?_eq_getElem hc) (Array.getElem?_eq_getElem hp)

theorem Below.trans {xs : Array β} {a b c : Nat} (ab : Below key xs a b) (bc : Below key xs b c)
    (ha : a < xs.size) (hb : b < xs.size) (hc : c < xs.size) : Below key xs a c :=
  below_of_le ha hc ((ab.le ha hb).trans (bc.le hb hc))

theorem below_swapIfInBounds {xs : Array β} {i j : Nat} (hi : i < xs.size) (hj : j < xs.size) (c p : Nat) :
    Below key (xs.swapIfInBounds i j) c p ↔ Below key xs (Equiv.swap i j c) (Equiv.swap i j p) := by
  simp only [Below, getElem?_swapIfInBounds_eq hi hj]

/-- One step of `up`: the element at `j`, above its parent, changes places with
it. -/
theorem UpInv.swap {xs : Array β} {n j : Nat} (o : UpInv key xs n j) (pos : 0 < j) (hjn : j < n)
    (hn : n ≤ xs.size) (above : key xs[(j - 1) / 2] < key xs[j]) :
    UpInv key (xs.swapIfInBounds ((j - 1) / 2) j) n ((j - 1) / 2) := by
  have hp : (j - 1) / 2 < j := by omega
  constructor
  · intro c c0 cn cp
    rw [below_swapIfInBounds (by omega) (by omega)]
    by_cases cj : c = j
    · -- the pair the swap put in order
      rw [cj, Equiv.swap_apply_right, Equiv.swap_apply_left]
      exact below_of_le (by omega) (by omega) above.le
    · rw [Equiv.swap_apply_of_ne_of_ne cp cj]
      by_cases pj : (c - 1) / 2 = j
      · -- a child of `j` now has the old parent above it
        rw [pj, Equiv.swap_apply_right]
        exact o.grand pos c c0 cn pj
      · by_cases pp : (c - 1) / 2 = (j - 1) / 2
        · -- the sibling of `j` is below the element that moved up
          rw [pp, Equiv.swap_apply_left]
          exact below_of_le (by omega) (by omega)
            (((o.except c c0 cn cj).le (by omega) (by omega)).trans (by simp only [pp]; exact above.le))
        · rw [Equiv.swap_apply_of_ne_of_ne pp pj]
          exact o.except c c0 cn cj
  · intro p0 c c0 cn pc
    have gp : ((j - 1) / 2 - 1) / 2 < (j - 1) / 2 := by omega
    rw [below_swapIfInBounds (by omega) (by omega),
      Equiv.swap_apply_of_ne_of_ne (show ((j - 1) / 2 - 1) / 2 ≠ (j - 1) / 2 by omega) (by omega)]
    have parent : Below key xs ((j - 1) / 2) (((j - 1) / 2 - 1) / 2) := o.except _ p0 (by omega) (by omega)
    by_cases cj : c = j
    · rw [cj, Equiv.swap_apply_right]
      exact parent
    · rw [Equiv.swap_apply_of_ne_of_ne (by omega) cj]
      exact (pc ▸ o.except c c0 cn cj).trans parent (by omega) (by omega) (by omega)

theorem UpInv.ordered {xs : Array β} {n j : Nat} (o : UpInv key xs n j)
    (stop : j = 0 ∨ Below key xs j ((j - 1) / 2)) : Ordered key xs n := by
  intro c c0 cn
  by_cases cj : c = j
  · rcases stop with stop | stop
    · omega
    · exact cj ▸ stop
  · exact o.except c c0 cn cj

/-- One step of `down`: the element at `i`, below its greater child `j`,
changes places with it. -/
theorem DownInv.swap {xs : Array β} {n i0 i j : Nat} (o : DownInv key xs n i0 i)
    (child : (j - 1) / 2 = i ∧ 0 < j) (hjn : j < n) (hn : n ≤ xs.size)
    (greatest : ∀ c, 0 < c → c < n → (c - 1) / 2 = i → Below key xs c j) (below : key xs[i] < key xs[j]) :
    DownInv key (xs.swapIfInBounds i j) n i0 j := by
  have hij : i < j := by omega
  constructor
  · intro c c0 cn cj pj
    rw [below_swapIfInBounds (by omega) (by omega)]
    by_cases ci : c = i
    · -- `i` now holds the child, which was below the parent of `i`
      have gp : (i - 1) / 2 < i := by omega
      rw [ci, Equiv.swap_apply_left, Equiv.swap_apply_of_ne_of_ne (by omega) (by omega)]
      exact o.grand (by omega) j child.2 hjn child.1
    · rw [Equiv.swap_apply_of_ne_of_ne ci cj]
      by_cases pi : (c - 1) / 2 = i
      · -- the sibling of `j` is below the greater child
        rw [pi, Equiv.swap_apply_left]
        exact greatest c c0 cn pi
      · rw [Equiv.swap_apply_of_ne_of_ne pi pj]
        exact o.except c c0 cn ci pi
  · intro _ c c0 cn pc
    rw [below_swapIfInBounds (by omega) (by omega), child.1, Equiv.swap_apply_left,
      Equiv.swap_apply_of_ne_of_ne (by omega) (by omega)]
    exact pc ▸ o.except c c0 cn (by omega) (by omega)
  · intro _
    refine ⟨child.2, ?_⟩
    rw [below_swapIfInBounds (by omega) (by omega), child.1, Equiv.swap_apply_right, Equiv.swap_apply_left]
    exact below_of_le (by omega) (by omega) below.le

/-- Where `down` stops, the children of `i` are below it: what is left is the
invariant of `up` at `i`. -/
theorem DownInv.upInv {xs : Array β} {n i0 i : Nat} (o : DownInv key xs n i0 i)
    (stop : ∀ c, 0 < c → c < n → (c - 1) / 2 = i → Below key xs c i) : UpInv key xs n i where
  except c c0 cn ci := by
    by_cases pi : (c - 1) / 2 = i
    · exact pi ▸ stop c c0 cn pi
    · exact o.except c c0 cn ci pi
  grand := o.grand

/-- In a heap-ordered prefix the root is the greatest element. -/
theorem Ordered.le_root {xs : Array β} {n : Nat} (ord : Ordered key xs n) (hn : n ≤ xs.size) :
    ∀ k (hk : k < n), key xs[k] ≤ key xs[0] := by
  intro k
  induction k using Nat.strongRecOn with
  | ind k ih =>
    intro hk
    rcases Nat.eq_zero_or_pos k with rfl | pos
    · exact le_rfl
    · exact ((ord k pos hk).le (by omega) (by omega)).trans (ih _ (by omega) (by omega))

/-- Appending to a heap-ordered array leaves the invariant of `up` at the new
element. -/
theorem Ordered.upInv_push {xs : Array β} (ord : Ordered key xs xs.size) (x : β) :
    UpInv key (xs.push x) (xs.size + 1) xs.size where
  except c c0 cn cl := by
    have old := (ord c c0 (by omega)).le (by omega) (by omega)
    apply below_of_le (by simp; omega) (by simp; omega)
    rw [Array.getElem_push_lt (by omega), Array.getElem_push_lt (by omega)]
    exact old
  grand _ c _ cn pc := by omega

/-- Swapping the root with the last element leaves the invariant of `down` at
the root, over the elements before the last. -/
theorem Ordered.downInv_swap {xs : Array β} {n i : Nat} (ord : Ordered key xs (n + 1)) (hn : n + 1 ≤ xs.size)
    (hi : i ≤ n) : DownInv key (xs.swapIfInBounds i n) n i i := by
  constructor
  · intro c c0 cn ci pi
    rw [below_swapIfInBounds (by omega) (by omega), Equiv.swap_apply_of_ne_of_ne ci (by omega),
      Equiv.swap_apply_of_ne_of_ne pi (by omega)]
    exact ord c c0 (by omega)
  · intro i0 c c0 cn pc
    rw [below_swapIfInBounds (by omega) (by omega), Equiv.swap_apply_of_ne_of_ne (by omega) (by omega),
      Equiv.swap_apply_of_ne_of_ne (by omega) (by omega)]
    exact (pc ▸ ord c c0 (by omega)).trans (ord i i0 (by omega)) (by omega) (by omega) (by omega)
  · intro h
    exact absurd rfl h

end Order

theorem perm_swapIfInBounds {xs : Array β} {i j : Nat} (hi : i < xs.size) (hj : j < xs.size) :
    (xs.swapIfInBounds i j).Perm xs := by
  rw [Array.swapIfInBounds_def, dif_pos hi, dif_pos hj]
  exact Array.swap_perm hi hj

/-! ## The algorithms on an array -/

section Algorithms

variable [LinearOrder κ] {key : β → κ} (lt : β → β → Bool) (oob : ε)

/-- `lt` compares the keys of the elements of `xs`: `Less(i, j)` holds when
`i`'s key is the greater. -/
def Agrees (key : β → κ) (xs : Array β) : Prop := ∀ x ∈ xs, ∀ y ∈ xs, lt x y = decide (key y < key x)

variable {lt}

theorem Agrees.perm {xs ys : Array β} (agree : Agrees lt key xs) (p : ys.Perm xs) : Agrees lt key ys :=
  fun x hx y hy => agree x (p.mem_iff.mp hx) y (p.mem_iff.mp hy)

theorem Agrees.less {xs : Array β} (agree : Agrees lt key xs) {i j : Nat} (hi : i < xs.size) (hj : j < xs.size) :
    (arrayHeap lt oob).Less xs i j = .ok (decide (key xs[j] < key xs[i])) := by
  rw [arrayHeap_less lt oob hi hj, agree _ (Array.getElem_mem hi) _ (Array.getElem_mem hj)]

/-- Whatever `lt` says, a run of `up` permutes the array and moves nothing
from `n` on. -/
theorem up_frame {n j : Nat} (hj : j < n) {xs ys : Array β} (hn : n ≤ xs.size)
    (run : up (arrayHeap lt oob) xs j = .ok ys) : ys.Perm xs ∧ ∀ k, n ≤ k → ys[k]? = xs[k]? := by
  induction j using Nat.strongRecOn generalizing xs with
  | ind j ih =>
    by_cases root : (j - 1) / 2 = j
    · rw [up_root _ xs root] at run
      cases run
      exact ⟨Array.Perm.rfl, fun _ _ => rfl⟩
    · rw [up_step _ xs root, arrayHeap_less lt oob (by omega) (by omega), Except.bind_ok_eq] at run
      split at run
      · cases run
        exact ⟨Array.Perm.rfl, fun _ _ => rfl⟩
      · rw [arrayHeap_swap lt oob (by omega) (by omega), Except.bind_ok_eq] at run
        have p1 := @perm_swapIfInBounds β xs ((j - 1) / 2) j (by omega) (by omega)
        obtain ⟨p2, frame⟩ := ih _ (by omega) (by omega) (by simp; omega) run
        refine ⟨p2.trans p1, fun k hk => ?_⟩
        rw [frame k hk, getElem?_swapIfInBounds_eq (by omega) (by omega),
          Equiv.swap_apply_of_ne_of_ne (by omega) (by omega)]

/-- Whatever `lt` says, a run of `down` below `n` permutes the array and moves
nothing from `n` on. -/
theorem downLoop_frame {n i : Nat} {xs ys : Array β} {k : Nat} (hn : n ≤ xs.size)
    (run : downLoop (arrayHeap lt oob) xs i n = .ok (ys, k)) : ys.Perm xs ∧ ∀ m, n ≤ m → ys[m]? = xs[m]? := by
  by_cases leaf : n ≤ 2 * i + 1
  · rw [downLoop_stop _ xs leaf] at run
    cases run
    exact ⟨Array.Perm.rfl, fun _ _ => rfl⟩
  · rw [downLoop_step _ xs leaf] at run
    obtain ⟨right, hright, run⟩ := Except.bind_eq_ok_iff.mp run
    -- the child the loop compares with is below `n`
    have jn : (if right then 2 * i + 2 else 2 * i + 1) < n := by
      split
      · by_cases two : 2 * i + 2 < n
        · exact two
        · rw [if_neg two] at hright
          cases hright
          contradiction
      · omega
    have ij : i < (if right then 2 * i + 2 else 2 * i + 1) := by split <;> omega
    obtain ⟨j, hj⟩ : ∃ j, (if right then 2 * i + 2 else 2 * i + 1) = j := ⟨_, rfl⟩
    rw [hj] at jn ij
    rw [hj, arrayHeap_less lt oob (by omega) (by omega), Except.bind_ok_eq] at run
    cases less : lt xs[j] xs[i]
    · simp only [less, Bool.not_false, if_true] at run
      cases run
      exact ⟨Array.Perm.rfl, fun _ _ => rfl⟩
    · simp only [less, Bool.not_true, Bool.false_eq_true, if_false] at run
      rw [arrayHeap_swap lt oob (by omega) (by omega), Except.bind_ok_eq] at run
      obtain ⟨p2, frame⟩ := downLoop_frame (by simp; omega) run
      refine ⟨p2.trans (perm_swapIfInBounds (by omega) (by omega)), fun m hm => ?_⟩
      rw [frame m hm, getElem?_swapIfInBounds_eq (by omega) (by omega),
        Equiv.swap_apply_of_ne_of_ne (by omega) (by omega)]
termination_by n - i
decreasing_by omega

/-- `up` from its invariant: the prefix ends heap-ordered, the array is a
permutation of what it was, and nothing from `n` on moves. -/
theorem up_spec {xs : Array β} {n j : Nat} (agree : Agrees lt key xs) (o : UpInv key xs n j) (hj : j < n)
    (hn : n ≤ xs.size) :
    ∃ ys, up (arrayHeap lt oob) xs j = .ok ys ∧ Ordered key ys n ∧ ys.Perm xs ∧ ∀ k, n ≤ k → ys[k]? = xs[k]? := by
  induction j using Nat.strongRecOn generalizing xs with
  | ind j ih =>
    by_cases root : (j - 1) / 2 = j
    · exact ⟨xs, up_root _ xs root, o.ordered (.inl (by omega)), Array.Perm.rfl, fun _ _ => rfl⟩
    · have hp : (j - 1) / 2 < j := by omega
      rw [up_step _ xs root, agree.less oob (by omega) (by omega), Except.bind_ok_eq]
      by_cases above : key xs[(j - 1) / 2] < key xs[j]
      · rw [decide_eq_true above, Bool.not_true, if_neg Bool.false_ne_true, arrayHeap_swap lt oob (by omega) (by omega),
          Except.bind_ok_eq]
        have p1 := @perm_swapIfInBounds β xs ((j - 1) / 2) j (by omega) (by omega)
        obtain ⟨ys, run, ord, p2, frame⟩ :=
          ih _ hp (agree.perm p1) (o.swap (by omega) hj hn above) (by omega) (by simp; omega)
        refine ⟨ys, run, ord, p2.trans p1, fun k hk => ?_⟩
        rw [frame k hk, getElem?_swapIfInBounds_eq (by omega) (by omega),
          Equiv.swap_apply_of_ne_of_ne (by omega) (by omega)]
      · rw [decide_eq_false above, Bool.not_false, if_pos rfl]
        exact ⟨xs, rfl, o.ordered (.inr (below_of_le (by omega) (by omega) (not_lt.mp above))), Array.Perm.rfl,
          fun _ _ => rfl⟩

/-- `down` from its invariant: where it stops, the invariant of `up` holds, and
the prefix is heap-ordered if the element moved; the array is a permutation
of what it was, and nothing from `n` on moves. -/
theorem downLoop_spec {xs : Array β} {n i0 i : Nat} (agree : Agrees lt key xs) (o : DownInv key xs n i0 i)
    (hn : n ≤ xs.size) (start : i0 ≤ i) :
    ∃ ys k, downLoop (arrayHeap lt oob) xs i n = .ok (ys, k) ∧ i ≤ k ∧ UpInv key ys n k ∧
      (k ≠ i0 → Ordered key ys n) ∧ ys.Perm xs ∧ ∀ m, n ≤ m → ys[m]? = xs[m]? := by
  -- where the loop stops at `i`, `o` and the children below `i` give both conclusions
  have finish : ∀ (stop : ∀ c, 0 < c → c < n → (c - 1) / 2 = i → Below key xs c i),
      UpInv key xs n i ∧ (i ≠ i0 → Ordered key xs n) := fun stop =>
    ⟨o.upInv stop, fun moved => (o.upInv stop).ordered (.inr (o.moved moved).2)⟩
  by_cases leaf : n ≤ 2 * i + 1
  · obtain ⟨up, ord⟩ := finish fun c _ cn pc => by omega
    exact ⟨xs, i, downLoop_stop _ xs leaf, Nat.le_refl i, up, ord, Array.Perm.rfl, fun _ _ => rfl⟩
  · -- the greater child, as the loop picks it
    obtain ⟨j, pick, child, hjn, greatest⟩ : ∃ j,
        ((if 2 * i + 2 < n then (arrayHeap lt oob).Less xs (2 * i + 2) (2 * i + 1) else .ok false).bind
          fun right => (arrayHeap lt oob).Less xs (if right then 2 * i + 2 else 2 * i + 1) i |>.bind fun less =>
            if !less then .ok (xs, i)
            else ((arrayHeap lt oob).Swap xs i ((if right then 2 * i + 2 else 2 * i + 1 : Nat) : Int)).bind fun s =>
              downLoop (arrayHeap lt oob) s (if right then 2 * i + 2 else 2 * i + 1) n) =
          ((arrayHeap lt oob).Less xs j i).bind (fun less => if !less then .ok (xs, i)
            else ((arrayHeap lt oob).Swap xs i j).bind fun s => downLoop (arrayHeap lt oob) s j n) ∧
        ((j - 1) / 2 = i ∧ 0 < j) ∧ j < n ∧ ∀ c, 0 < c → c < n → (c - 1) / 2 = i → Below key xs c j := by
      by_cases two : 2 * i + 2 < n
      · rw [if_pos two, agree.less oob (by omega) (by omega), Except.bind_ok_eq]
        by_cases right : key xs[2 * i + 1] < key xs[2 * i + 2]
        · rw [decide_eq_true right, if_pos rfl]
          refine ⟨2 * i + 2, rfl, ⟨by omega, by omega⟩, two, fun c c0 cn pc => ?_⟩
          rcases (show c = 2 * i + 1 ∨ c = 2 * i + 2 by omega) with rfl | rfl
          · exact below_of_le (by omega) (by omega) right.le
          · exact below_of_le (by omega) (by omega) le_rfl
        · rw [decide_eq_false right, if_neg Bool.false_ne_true]
          refine ⟨2 * i + 1, rfl, ⟨by omega, by omega⟩, by omega, fun c c0 cn pc => ?_⟩
          rcases (show c = 2 * i + 1 ∨ c = 2 * i + 2 by omega) with rfl | rfl
          · exact below_of_le (by omega) (by omega) le_rfl
          · exact below_of_le (by omega) (by omega) (not_lt.mp right)
      · rw [if_neg two, Except.bind_ok_eq, if_neg Bool.false_ne_true]
        refine ⟨2 * i + 1, rfl, ⟨by omega, by omega⟩, by omega, fun c c0 cn pc => ?_⟩
        rw [show c = 2 * i + 1 by omega]
        exact below_of_le (by omega) (by omega) le_rfl
    rw [downLoop_step _ xs leaf, pick, agree.less oob (by omega) (by omega), Except.bind_ok_eq]
    by_cases below : key xs[i] < key xs[j]
    · rw [decide_eq_true below, Bool.not_true, if_neg Bool.false_ne_true, arrayHeap_swap lt oob (by omega) (by omega),
        Except.bind_ok_eq]
      have p1 := @perm_swapIfInBounds β xs i j (by omega) (by omega)
      obtain ⟨ys, k, run, jk, up, ord, p2, frame⟩ :=
        downLoop_spec (agree.perm p1) (o.swap child hjn hn greatest below) (by simp; omega) (by omega)
      refine ⟨ys, k, run, by omega, up, ord, p2.trans p1, fun m hm => ?_⟩
      rw [frame m hm, getElem?_swapIfInBounds_eq (by omega) (by omega),
        Equiv.swap_apply_of_ne_of_ne (by omega) (by omega)]
    · rw [decide_eq_false below, Bool.not_false, if_pos rfl]
      obtain ⟨up, ord⟩ := finish fun c c0 cn pc =>
        (greatest c c0 cn pc).trans (below_of_le (by omega) (by omega) (not_lt.mp below)) (by omega) (by omega)
          (by omega)
      exact ⟨xs, i, rfl, Nat.le_refl i, up, ord, Array.Perm.rfl, fun _ _ => rfl⟩
termination_by n - i

theorem push_pop_getElem {xs : Array β} (nonempty : 0 < xs.size) : xs.pop.push xs[xs.size - 1] = xs := by
  apply Array.ext (by simp; omega)
  intro k h1 h2
  rw [Array.getElem_push]
  split <;> rename_i inside
  · simp
  · have hk : k = xs.size - 1 := by
      simp only [Array.size_push, Array.size_pop] at h1 inside
      omega
    simp only [hk]

/-- Whatever `lt` says, `heap.Remove` at `i` returns the element at `i`, and
the rest of the array. -/
theorem remove_getElem {xs ys : Array β} {y : β} {i : Nat} (hi : i < xs.size)
    (run : remove (arrayHeap lt oob) xs i = .ok (ys, y)) : y = xs[i] ∧ (ys.push y).Perm xs := by
  have last : ((arrayHeap lt oob).Len xs : Int) - 1 = ((xs.size - 1 : Nat) : Int) := by
    simp only [arrayHeap]
    omega
  obtain ⟨zs, fix, pop⟩ := Except.bind_eq_ok_iff.mp run
  -- `removeFix` leaves the element of `i` last and the array permuted
  have moved : zs.Perm xs ∧ zs[xs.size - 1]? = xs[i]? := by
    unfold removeFix at fix
    by_cases atEnd : i = xs.size - 1
    · rw [if_neg (by rw [last, atEnd]; exact not_not_intro rfl)] at fix
      cases fix
      exact ⟨Array.Perm.rfl, by rw [atEnd]⟩
    · rw [if_pos (by rw [last]; omega), last, arrayHeap_swap lt oob hi (by omega), Except.bind_eq_bind,
        Except.bind_ok_eq, Int.toNat_natCast] at fix
      have p1 := perm_swapIfInBounds hi (show xs.size - 1 < xs.size by omega)
      obtain ⟨⟨ws, moved⟩, run, fix⟩ := Except.bind_eq_ok_iff.mp fix
      simp only [down, Except.bind_eq_bind] at run
      obtain ⟨⟨vs, k⟩, loop, hv⟩ := Except.bind_eq_ok_iff.mp run
      cases hv
      obtain ⟨p2, frame⟩ := downLoop_frame oob (by simp) loop
      have removed : vs[xs.size - 1]? = xs[i]? := by
        rw [frame _ (Nat.le_refl _), getElem?_swapIfInBounds_eq hi (by omega), Equiv.swap_apply_right]
      dsimp only at fix
      split at fix
      · obtain ⟨p3, frame'⟩ := up_frame oob (show i < xs.size - 1 by omega)
          (by rw [p2.size_eq]; simp) fix
        exact ⟨(p3.trans p2).trans p1, by rw [frame' _ (Nat.le_refl _), removed]⟩
      · cases fix
        exact ⟨p2.trans p1, removed⟩
  have size : zs.size = xs.size := moved.1.size_eq
  have top := moved.2
  rw [Array.getElem?_eq_getElem (by omega), Array.getElem?_eq_getElem hi, Option.some_inj] at top
  rw [arrayHeap_pop lt oob (by omega)] at pop
  cases pop
  have back := @push_pop_getElem β zs (by omega)
  refine ⟨by simp only [size]; exact top, ?_⟩
  rw [back]
  exact moved.1

theorem Ordered.pop {xs : Array β} {n : Nat} (ord : Ordered key xs n) : Ordered key xs.pop n := by
  intro c c0 cn a b ha hb
  rw [Array.getElem?_pop] at ha hb
  split_ifs at ha hb
  exact ord c c0 cn a b ha hb

theorem push_spec {xs : Array β} (x : β) (agree : Agrees lt key (xs.push x)) (ord : Ordered key xs xs.size) :
    ∃ ys, push (arrayHeap lt oob) xs x = .ok ys ∧ Ordered key ys ys.size ∧ ys.Perm (xs.push x) := by
  obtain ⟨ys, run, ordered, perm, -⟩ :=
    up_spec oob agree (ord.upInv_push x) (Nat.lt_succ_self _) (by simp)
  have len : (arrayHeap lt oob).Len (xs.push x) - 1 = xs.size := by simp [arrayHeap]
  refine ⟨ys, ?_, by rw [perm.size_eq, Array.size_push]; exact ordered, perm⟩
  simp only [push, arrayHeap_push, Except.bind_eq_bind, Except.bind_ok_eq, len]
  exact run

theorem pop_spec {xs : Array β} (agree : Agrees lt key xs) (ord : Ordered key xs xs.size) (nonempty : 0 < xs.size) :
    ∃ ys y, pop (arrayHeap lt oob) xs = .ok (ys, y) ∧ Ordered key ys ys.size ∧ (ys.push y).Perm xs ∧
      ∀ z ∈ xs, key z ≤ key y := by
  -- the root changes places with the last element, which then sifts down the rest
  have last : ((arrayHeap lt oob).Len xs : Int) - 1 = ((xs.size - 1 : Nat) : Int) := by
    simp only [arrayHeap]
    omega
  have swap : (arrayHeap lt oob).Swap xs 0 ((xs.size - 1 : Nat) : Int) = .ok (xs.swapIfInBounds 0 (xs.size - 1)) :=
    arrayHeap_swap lt oob nonempty (by omega)
  have p1 := perm_swapIfInBounds nonempty (show xs.size - 1 < xs.size by omega)
  obtain ⟨ys, k, run, -, up, ord', p2, frame⟩ :=
    downLoop_spec oob (agree.perm p1)
      ((show Ordered key xs (xs.size - 1 + 1) by rwa [Nat.sub_add_cancel nonempty]).downInv_swap (by omega)
        (Nat.zero_le _))
      (by simp) (Nat.le_refl 0)
  have ordered : Ordered key ys (xs.size - 1) := by
    by_cases moved : k = 0
    · exact up.ordered (.inl moved)
    · exact ord' moved
  have size : ys.size = xs.size := by rw [p2.size_eq, Array.size_swapIfInBounds]
  have top : ys[xs.size - 1]? = some xs[0] := by
    rw [frame _ (Nat.le_refl _), getElem?_swapIfInBounds_eq nonempty (by omega), Equiv.swap_apply_right]
    exact Array.getElem?_eq_getElem nonempty
  have popped : (arrayHeap lt oob).Pop ys = .ok (ys.pop, xs[0]) := by
    rw [arrayHeap_pop lt oob (by omega)]
    rw [Array.getElem?_eq_getElem (by omega), Option.some_inj] at top
    simp only [size, top]
  refine ⟨ys.pop, xs[0], ?_, ?_, ?_, ?_⟩
  · simp only [pop, Except.bind_eq_bind, last, swap, Except.bind_ok_eq, Int.toNat_natCast, down, run,
      Except.pure_eq_ok, popped]
  · rw [Array.size_pop, size]
    exact ordered.pop
  · have back := @push_pop_getElem β ys (by omega)
    rw [Array.getElem?_eq_getElem (by omega), Option.some_inj] at top
    simp only [size, top] at back
    rw [back]
    exact p2.trans p1
  · intro z hz
    obtain ⟨k, hk, rfl⟩ := Array.getElem_of_mem hz
    exact ord.le_root (Nat.le_refl _) k hk

theorem Ordered.mono {xs : Array β} {m n : Nat} (ord : Ordered key xs n) (le : m ≤ n) : Ordered key xs m :=
  fun c c0 cm => ord c c0 (by omega)

theorem removeFix_spec {xs : Array β} {i : Nat} (agree : Agrees lt key xs) (ord : Ordered key xs xs.size)
    (hi : i < xs.size) :
    ∃ zs, removeFix (arrayHeap lt oob) xs i = .ok zs ∧ Ordered key zs (xs.size - 1) ∧ zs.Perm xs ∧
      zs[xs.size - 1]? = xs[i]? := by
  have last : ((arrayHeap lt oob).Len xs : Int) - 1 = ((xs.size - 1 : Nat) : Int) := by
    simp only [arrayHeap]
    omega
  unfold removeFix
  by_cases atEnd : i = xs.size - 1
  · rw [if_neg (by rw [last, atEnd]; exact not_not_intro rfl)]
    exact ⟨xs, rfl, ord.mono (Nat.sub_le _ _), Array.Perm.rfl, by rw [atEnd]⟩
  · -- the last element takes the place of `i` and is sifted down, or up
    rw [if_pos (by rw [last]; omega), last, arrayHeap_swap lt oob hi (by omega), Except.bind_eq_bind,
      Except.bind_ok_eq, Int.toNat_natCast]
    have p1 := perm_swapIfInBounds hi (show xs.size - 1 < xs.size by omega)
    obtain ⟨ys, k, run, ik, up, ord', p2, frame⟩ :=
      downLoop_spec oob (agree.perm p1)
        ((show Ordered key xs (xs.size - 1 + 1) by rwa [Nat.sub_add_cancel (by omega)]).downInv_swap (by omega)
          (show i ≤ xs.size - 1 by omega))
        (by simp) (Nat.le_refl i)
    have removed : ys[xs.size - 1]? = xs[i]? := by
      rw [frame _ (Nat.le_refl _), getElem?_swapIfInBounds_eq hi (by omega), Equiv.swap_apply_right]
    simp only [down, run, Except.bind_eq_bind, Except.bind_ok_eq, Except.pure_eq_ok]
    by_cases moved : k = i
    · rw [if_pos (by simp [moved])]
      obtain ⟨zs, run', ordered, p3, frame'⟩ :=
        up_spec oob ((agree.perm p1).perm p2) (moved ▸ up) (by omega) (by rw [p2.size_eq]; simp)
      exact ⟨zs, run', ordered, (p3.trans p2).trans p1, by rw [frame' _ (Nat.le_refl _), removed]⟩
    · rw [if_neg (by simp; omega)]
      exact ⟨ys, rfl, ord' moved, p2.trans p1, removed⟩

theorem remove_spec {xs : Array β} {i : Nat} (agree : Agrees lt key xs) (ord : Ordered key xs xs.size)
    (hi : i < xs.size) :
    ∃ ys, remove (arrayHeap lt oob) xs i = .ok (ys, xs[i]) ∧ Ordered key ys ys.size ∧ (ys.push xs[i]).Perm xs := by
  obtain ⟨zs, run, ordered, perm, removed⟩ := removeFix_spec oob agree ord hi
  have size : zs.size = xs.size := perm.size_eq
  rw [Array.getElem?_eq_getElem (by omega), Array.getElem?_eq_getElem hi, Option.some_inj] at removed
  have popped : (arrayHeap lt oob).Pop zs = .ok (zs.pop, xs[i]) := by
    rw [arrayHeap_pop lt oob (by omega)]
    simp only [size, removed]
  refine ⟨zs.pop, by rw [remove, run, Except.bind_ok_eq, popped], ?_, ?_⟩
  · rw [Array.size_pop, size]
    exact ordered.pop
  · have back := @push_pop_getElem β zs (by omega)
    simp only [size, removed] at back
    rw [back]
    exact perm

end Algorithms

end GoHeap
