import FiscoBcos.Prque.Sstack
import FiscoBcos.Lib.FixedWidth
import Mathlib

/-!
# `common/prque`: the priority queue

`Prque` runs `container/heap` over a `sstack`. By `Sstack.refines_arrayHeap`
its operations are the heap algorithms on the array of items that the blocks
hold, which `Lib/HeapOrder.lean` proves correct for a comparison read through
a key. The key here is the distance of a priority from the bottom of a half of
the `int64` circle holding all priorities present (`FixedWidth.distance`), so
the heap order itself (`HeapOrdered`) does not depend on which half.

* `Holds p items`: the queue holds `items`, heap-ordered. `New` holds none, and
  `Push`, `Pop` and `Remove` inside the array keep it (`holds_push`, `holds_pop`,
  `holds_remove`), with `Pop` returning an item nothing present comes before.
* `Indexed p`: the queue reports positions to a callback and every report is
  still accurate (`Sstack.Tracked`); `Push` of a value not present, `Pop` and
  `Remove` keep it, and `Remove` at a value's last reported index removes it.
-/

namespace FiscoBcos

open Prque

/-- `Prque`. -/
structure Prque (α : Type) where
  cont : Sstack α

namespace Prque

variable {α : Type}

/-- `New`. -/
def New (setIndex : Bool) : Prque α := ⟨newSstack setIndex⟩

/-- `Prque.Push`. -/
def Push (p : Prque α) (data : α) (priority : Int64) : Except String (Prque α) := do
  let cont ← GoHeap.push Sstack.iface p.cont (some ⟨data, priority⟩)
  pure ⟨cont⟩

/-- `Prque.Pop`: the value and priority of the item `heap.Pop` returns, read
through the item pointer. -/
def Pop (p : Prque α) : Except String (Prque α × α × Int64) := do
  let (cont, x) ← GoHeap.pop Sstack.iface p.cont
  let item ← deref x
  pure (⟨cont⟩, item.value, item.priority)

/-- `Prque.PopItem`. -/
def PopItem (p : Prque α) : Except String (Prque α × α) := do
  let (cont, x) ← GoHeap.pop Sstack.iface p.cont
  let item ← deref x
  pure (⟨cont⟩, item.value)

/-- `Prque.Remove`: what `heap.Remove` returns, the item pointer itself. -/
def Remove (p : Prque α) (i : Int) : Except String (Prque α × Option (Item α)) :=
  if i < 0 then pure (p, none)
  else do
    let (cont, x) ← GoHeap.remove Sstack.iface p.cont i.toNat
    pure (⟨cont⟩, x)

/-- `Prque.Empty`. -/
def Empty (p : Prque α) : Bool := p.cont.Len == 0

/-- `Prque.Size`. -/
def Size (p : Prque α) : Nat := p.cont.Len

/-- `Prque.Reset`: the queue of `New` with the same callback. The calls already
made to the callback stay made. -/
def Reset (p : Prque α) : Prque α := ⟨{ (New p.cont.setIndex : Prque α).cont with reported := p.cont.reported }⟩

/-! ## The wrap-around order through a key -/

open FixedWidth (distance)

/-- The key of an entry: the distance of its priority from `lo`. -/
def priorityKey (lo : Int64) : Option (Item α) → Nat
  | some it => distance lo it.priority
  | none => 0

/-- The priorities of `items` lie within half the `int64` circle from one
`lo`. -/
def Spanned (items : List (Item α)) : Prop := ∃ lo : Int64, ∀ it ∈ items, distance lo it.priority < 2 ^ 63

/-- Every entry of the array is an item within half the circle from `lo`. -/
def InSpan (lo : Int64) (xs : Array (Option (Item α))) : Prop :=
  ∀ x ∈ xs, ∃ it, x = some it ∧ distance lo it.priority < 2 ^ 63

/-- The heap order of `container/heap` under `sstack.Less`: no entry comes
before its parent. -/
def HeapOrdered (xs : Array (Option (Item α))) : Prop :=
  ∀ c (hc : c < xs.size), 0 < c → Sstack.before xs[c] xs[(c - 1) / 2] = false

theorem InSpan.agrees {lo : Int64} {xs : Array (Option (Item α))} (span : InSpan lo xs) :
    GoHeap.Agrees Sstack.before (priorityKey lo) xs := by
  intro x hx y hy
  obtain ⟨a, rfl, ha⟩ := span x hx
  obtain ⟨b, rfl, hb⟩ := span y hy
  simp only [Sstack.before, priorityKey]
  exact decide_eq_decide.mpr (FixedWidth.sub_pos_iff_distance_lt ha hb)

theorem InSpan.ordered_iff {lo : Int64} {xs : Array (Option (Item α))} (span : InSpan lo xs) :
    GoHeap.Ordered (priorityKey lo) xs xs.size ↔ HeapOrdered xs := by
  have agree := span.agrees
  constructor
  · intro ord c hc c0
    have parent : (c - 1) / 2 < xs.size := by omega
    have below := ord c c0 hc xs[c] xs[(c - 1) / 2] (Array.getElem?_eq_getElem hc)
      (Array.getElem?_eq_getElem parent)
    rw [agree _ (Array.getElem_mem hc) _ (Array.getElem_mem parent)]
    exact decide_eq_false (Nat.not_lt.mpr below)
  · intro ord c c0 hc x y hx hy
    have parent : (c - 1) / 2 < xs.size := by omega
    rw [Array.getElem?_eq_getElem hc, Option.some_inj] at hx
    rw [Array.getElem?_eq_getElem parent, Option.some_inj] at hy
    have stay := ord c hc c0
    rw [agree _ (Array.getElem_mem hc) _ (Array.getElem_mem parent), hx, hy] at stay
    exact Nat.not_lt.mp (of_decide_eq_false stay)

theorem InSpan.mono {lo : Int64} {xs ys : Array (Option (Item α))} (span : InSpan lo xs) (sub : ∀ y ∈ ys, y ∈ xs) :
    InSpan lo ys :=
  fun y hy => span y (sub y hy)

/-! ## The queue holds its items -/

/-- The queue holds `items`: its stack is valid, and its heap array is a
permutation of them, heap-ordered under the wrap-around order. -/
structure Holds (p : Prque α) (items : List (Item α)) : Prop where
  valid : p.cont.Valid
  perm : (Sstack.heap p.cont).toList.Perm (items.map some)
  ordered : HeapOrdered (Sstack.heap p.cont)

theorem mem_heap_of_holds {p : Prque α} {items : List (Item α)} (h : Holds p items) {x : Option (Item α)}
    (hx : x ∈ Sstack.heap p.cont) : ∃ it ∈ items, x = some it := by
  have := h.perm.mem_iff.mp (Array.mem_toList_iff.mpr hx)
  obtain ⟨it, mem, rfl⟩ := List.mem_map.mp this
  exact ⟨it, mem, rfl⟩

theorem Holds.inSpan {p : Prque α} {items : List (Item α)} (h : Holds p items) {lo : Int64}
    (span : ∀ it ∈ items, distance lo it.priority < 2 ^ 63) : InSpan lo (Sstack.heap p.cont) := by
  intro x hx
  obtain ⟨it, mem, rfl⟩ := mem_heap_of_holds h hx
  exact ⟨it, rfl, span it mem⟩

theorem Holds.size_eq {p : Prque α} {items : List (Item α)} (h : Holds p items) : p.Size = items.length := by
  have := h.perm.length_eq
  simpa [Size, Sstack.Len] using this

theorem holds_new (setIndex : Bool) : Holds (New setIndex : Prque α) [] where
  valid := Sstack.newSstack_valid setIndex
  perm := by
    rw [Array.toList_eq_nil_iff.mpr (Array.size_eq_zero_iff.mp (Sstack.size_heap _))]
    exact List.Perm.nil
  ordered c hc := absurd hc (by simp [New, newSstack])

/-- The items an array of entries holds. -/
def itemsOf (xs : List (Option (Item α))) : List (Item α) := xs.filterMap id

theorem map_some_itemsOf {xs : List (Option (Item α))} (all : ∀ x ∈ xs, x.isSome) : (itemsOf xs).map some = xs := by
  induction xs with
  | nil => rfl
  | cons x xs ih =>
    obtain ⟨y, rfl⟩ := Option.isSome_iff_exists.mp (all x List.mem_cons_self)
    have rest := ih fun z hz => all z (List.mem_cons_of_mem _ hz)
    unfold itemsOf at rest ⊢
    rw [List.filterMap_cons_some (show id (some y) = some y from rfl), List.map_cons, rest]

theorem perm_of_map_some {items rest : List (Item α)} (h : (items.map some).Perm (rest.map some)) :
    items.Perm rest := by
  simpa using h.filterMap id

/-- An entry taken from the queue that holds `items`, leaving a valid stack
whose array, heap-ordered, is the rest: the entry is an item of `items`, and
the queue holds the others. -/
theorem holds_of_removed {p : Prque α} {items : List (Item α)} (h : Holds p items) {lo : Int64}
    (span : ∀ it ∈ items, distance lo it.priority < 2 ^ 63) {s' : Sstack α} (hv' : s'.Valid)
    {x : Option (Item α)} (perm : ((Sstack.heap s').push x).Perm (Sstack.heap p.cont))
    (ord : GoHeap.Ordered (priorityKey lo) (Sstack.heap s') (Sstack.heap s').size) :
    ∃ it rest, x = some it ∧ items.Perm (it :: rest) ∧ Holds ⟨s'⟩ rest := by
  have sub : ∀ y ∈ (Sstack.heap s').push x, y ∈ Sstack.heap p.cont := fun y hy => perm.mem_iff.mp hy
  obtain ⟨it, -, rfl⟩ := mem_heap_of_holds h (sub x (Array.mem_push_self))
  have all : ∀ y ∈ (Sstack.heap s').toList, y.isSome := fun y hy => by
    obtain ⟨c, -, rfl⟩ := mem_heap_of_holds h (sub y (Array.mem_push_of_mem _ (Array.mem_toList_iff.mp hy)))
    rfl
  refine ⟨it, itemsOf (Sstack.heap s').toList, rfl, ?_, hv', ?_, ?_⟩
  · -- both sides, as entries, are a permutation of the old array
    apply perm_of_map_some
    rw [List.map_cons, map_some_itemsOf all]
    have whole := (Array.perm_iff_toList_perm.mp perm).trans h.perm
    rw [Array.toList_push] at whole
    exact whole.symm.trans (List.perm_append_singleton _ _)
  · exact (map_some_itemsOf all).symm ▸ List.Perm.refl _
  · have inSpan := (h.inSpan span).mono fun y hy => sub y (Array.mem_push_of_mem _ hy)
    exact inSpan.ordered_iff.mp ord

theorem holds_push {p : Prque α} {items : List (Item α)} (h : Holds p items) (v : α) (pri : Int64)
    (span : Spanned (⟨v, pri⟩ :: items)) : ∃ p', p.Push v pri = .ok p' ∧ Holds p' (⟨v, pri⟩ :: items) := by
  obtain ⟨lo, near⟩ := span
  obtain ⟨s', run, hv', -, abs⟩ := GoHeap.push_refines Sstack.refines_arrayHeap h.valid (x := some ⟨v, pri⟩) rfl
  -- the array with the new item at the end is within the span
  have inSpan : InSpan lo ((Sstack.heap p.cont).push (some ⟨v, pri⟩)) := by
    intro y hy
    rcases Array.mem_push.mp hy with old | rfl
    · obtain ⟨it, mem, rfl⟩ := mem_heap_of_holds h old
      exact ⟨it, rfl, near it (List.mem_cons_of_mem _ mem)⟩
    · exact ⟨_, rfl, near _ List.mem_cons_self⟩
  obtain ⟨ys, run', ord, perm⟩ := GoHeap.push_spec indexOutOfRange (some ⟨v, pri⟩) inSpan.agrees
    ((h.inSpan fun it mem => near it (List.mem_cons_of_mem _ mem)).ordered_iff.mpr h.ordered)
  rw [abs, Except.ok.injEq] at run'
  subst run'
  refine ⟨⟨s'⟩, by simp [Push, run], hv', ?_, ?_⟩
  · have whole := Array.perm_iff_toList_perm.mp perm
    rw [Array.toList_push] at whole
    exact whole.trans ((h.perm.append_right _).trans (List.perm_append_singleton _ _))
  · exact (inSpan.mono fun y hy => perm.mem_iff.mp hy).ordered_iff.mp ord

theorem holds_pop {p : Prque α} {items : List (Item α)} (h : Holds p items) (nonempty : items ≠ [])
    (span : Spanned items) :
    ∃ p' v pri rest, p.Pop = .ok (p', v, pri) ∧ items.Perm (⟨v, pri⟩ :: rest) ∧
      (∀ it ∈ items, ¬it.priority - pri > 0) ∧ Holds p' rest := by
  obtain ⟨lo, near⟩ := span
  have size : 0 < p.cont.size := by
    have := h.size_eq
    simp only [Size, Sstack.Len] at this
    rw [this]
    exact List.length_pos_iff.mpr nonempty
  obtain ⟨s', x, run, hv', -, abs⟩ := GoHeap.pop_refines Sstack.refines_arrayHeap h.valid size
  have inSpan := h.inSpan near
  obtain ⟨ys, y, run', ord, perm, top⟩ := GoHeap.pop_spec indexOutOfRange inSpan.agrees
    (inSpan.ordered_iff.mpr h.ordered) (by simpa using size)
  rw [abs, Except.ok.injEq, Prod.mk.injEq] at run'
  obtain ⟨rfl, rfl⟩ := run'
  obtain ⟨it, rest, rfl, items_perm, holds⟩ := holds_of_removed h near hv' perm ord
  refine ⟨⟨s'⟩, it.value, it.priority, rest, by simp [Pop, run], items_perm, fun z mem => ?_, holds⟩
  -- nothing present comes before the popped item
  have key := top (some z) (Array.mem_toList_iff.mp (h.perm.mem_iff.mpr (List.mem_map_of_mem mem)))
  have hz := near z mem
  have hit := near it (items_perm.mem_iff.mpr List.mem_cons_self)
  rw [FixedWidth.sub_pos_iff_distance_lt hz hit]
  exact Nat.not_lt.mpr key

theorem holds_remove {p : Prque α} {items : List (Item α)} (h : Holds p items) {i : Int}
    (hi : i < items.length) (span : Spanned items) :
    ∃ p' r, p.Remove i = .ok (p', r) ∧ (i < 0 → r = none ∧ p' = p) ∧
      (0 ≤ i → ∃ it rest, r = some it ∧ items.Perm (it :: rest) ∧ Holds p' rest) := by
  by_cases neg : i < 0
  · exact ⟨p, none, by simp [Remove, neg], fun _ => ⟨rfl, rfl⟩, fun nonneg => absurd nonneg (by omega)⟩
  · obtain ⟨lo, near⟩ := span
    have inside : i.toNat < p.cont.size := by
      have := h.size_eq
      simp only [Size, Sstack.Len] at this
      omega
    obtain ⟨s', x, run, hv', -, abs⟩ := GoHeap.remove_refines Sstack.refines_arrayHeap h.valid inside
    have inSpan := h.inSpan near
    obtain ⟨ys, run', ord, perm⟩ := GoHeap.remove_spec indexOutOfRange inSpan.agrees
      (inSpan.ordered_iff.mpr h.ordered) (by simpa using inside)
    rw [abs, Except.ok.injEq, Prod.mk.injEq] at run'
    obtain ⟨rfl, rfl⟩ := run'
    obtain ⟨it, rest, hit, items_perm, holds⟩ := holds_of_removed h near hv' perm ord
    refine ⟨⟨s'⟩, _, by simp [Remove, neg, run], fun neg' => absurd neg' neg, fun _ => ⟨it, rest, hit, items_perm, holds⟩⟩

/-- The queue keeps its items across block boundaries: `New` holds none, and
from a queue that holds `items`, `Size` counts them, `Push` within one span
adds its item, `Pop` of a non-empty queue returns an item that nothing present
comes before and keeps the others, and `Remove(i)` below `Size` returns one of
them and keeps the others (nil, changing nothing, for `i < 0`). -/
theorem Prque_keeps_items (setIndex : Bool) :
    Holds (New setIndex : Prque α) [] ∧
      ∀ (p : Prque α) (items : List (Item α)), Holds p items →
        p.Size = items.length ∧
        (∀ v pri, Spanned (⟨v, pri⟩ :: items) → ∃ p', p.Push v pri = .ok p' ∧ Holds p' (⟨v, pri⟩ :: items)) ∧
        (items ≠ [] → Spanned items →
          ∃ p' v pri rest, p.Pop = .ok (p', v, pri) ∧ items.Perm (⟨v, pri⟩ :: rest) ∧
            (∀ it ∈ items, ¬it.priority - pri > 0) ∧ Holds p' rest) ∧
        (∀ i : Int, i < items.length → Spanned items →
          ∃ p' r, p.Remove i = .ok (p', r) ∧ (i < 0 → r = none ∧ p' = p) ∧
            (0 ≤ i → ∃ it rest, r = some it ∧ items.Perm (it :: rest) ∧ Holds p' rest)) :=
  ⟨holds_new setIndex, fun _ _ h =>
    ⟨h.size_eq, fun v pri span => holds_push h v pri span, fun nonempty span => holds_pop h nonempty span,
      fun _ hi span => holds_remove h hi span⟩⟩

theorem Prque_keeps_items_first_push :
    ∃ p', (New false : Prque Nat).Push 0 1 = .ok p' ∧ Holds p' [⟨0, 1⟩] :=
  ((Prque_keeps_items false).2 (New false) [] (Prque_keeps_items false).1).2.1 0 1
    ⟨0, by simp [FixedWidth.distance]⟩

/-- `Remove(i)` past the end, without a callback: the last entry moves to
position `i` and the nil found there is popped, so after two pushes `Remove(2)`
returns nil, `Size` is one, and the item of priority 1 is gone. -/
theorem Remove_past_size_loses_item :
    ((do let p ← (New false : Prque Nat).Push 0 1; let p ← p.Push 1 2; p.Remove 2).map
      fun (r : Prque Nat × Option (Item Nat)) => (r.2, r.1.Size, (Sstack.heap r.1.cont).toList)) =
      .ok (none, 1, [some ⟨1, 2⟩]) := by
  decide +kernel

/-! ## Calls that do not panic

Whatever the priorities, a valid stack takes a `Push` and gives an item to a
`Pop` when it has one: the wrap-around order only matters for which item. -/

theorem Push_valid {p : Prque α} (hv : p.cont.Valid) (v : α) (pri : Int64) :
    ∃ p', p.Push v pri = .ok p' ∧ p'.cont.Valid ∧ p'.Size = p.Size + 1 := by
  obtain ⟨s', run, hv', len, -⟩ := GoHeap.push_refines Sstack.refines_arrayHeap hv (x := some ⟨v, pri⟩) rfl
  exact ⟨⟨s'⟩, by simp [Push, run], hv', len⟩

theorem PopItem_valid {p : Prque α} (hv : p.cont.Valid) (nonempty : p.Empty = false) :
    ∃ p' v, p.PopItem = .ok (p', v) ∧ p'.cont.Valid ∧ p'.Size + 1 = p.Size := by
  have size : 0 < p.cont.size := by simpa [Empty, Sstack.Len, Nat.pos_iff_ne_zero] using nonempty
  obtain ⟨s', x, run, hv', len, -⟩ := GoHeap.pop_refines Sstack.refines_arrayHeap hv size
  -- the entry popped is the last of a valid stack, so an item
  obtain ⟨s2, hv2, size2, last⟩ := GoHeap.pop_last Sstack.refines_arrayHeap hv size
  obtain ⟨it, top⟩ := hv2.entry_some (show s2.size - 1 < s2.size by simpa [Sstack.iface, Sstack.Len] using size2)
  obtain ⟨s3, pop, -⟩ := Sstack.Pop_spec hv2 size2 top
  have item : x = some it := by
    have popped : Sstack.iface.Pop s2 = .ok (s3, some it) := pop
    rw [last, popped] at run
    cases run
    rfl
  subst item
  refine ⟨⟨s'⟩, it.value, by simp [PopItem, run], hv', ?_⟩
  change s'.Len + 1 = p.cont.Len
  change s'.Len = p.cont.Len - 1 at len
  simp only [Sstack.Len] at len ⊢
  omega

/-! ## Index reports -/

section Indexed

variable [DecidableEq α]

/-- The queue's stack is valid and reports positions to a callback, every
report still accurate. -/
structure Indexed (p : Prque α) : Prop where
  valid : p.cont.Valid
  tracked : p.cont.Tracked

/-- `container/heap` on the stack, with the reports kept accurate. -/
theorem refines_tracked :
    GoHeap.Refines (Sstack.iface : GoHeap.Interface (Sstack α) _ _)
      (GoHeap.arrayHeap Sstack.before indexOutOfRange) Sstack.heap (fun s => s.Valid ∧ s.Tracked)
      (fun s x => x.isSome ∧ Sstack.Fresh s x) :=
  Sstack.refines_arrayHeap.and Sstack.tracked_preserves

theorem indexed_new : Indexed (New true : Prque α) := ⟨Sstack.newSstack_valid true, Sstack.newSstack_tracked⟩

theorem indexed_push {p : Prque α} (h : Indexed p) {v : α} (fresh : ¬Sstack.Held p.cont v) (pri : Int64) :
    ∃ p', p.Push v pri = .ok p' ∧ Indexed p' := by
  obtain ⟨s', run, ⟨hv', ht'⟩, -, -⟩ :=
    GoHeap.push_refines refines_tracked ⟨h.valid, h.tracked⟩ (x := some ⟨v, pri⟩) ⟨rfl, ⟨v, pri⟩, rfl, fresh⟩
  exact ⟨⟨s'⟩, by simp [Push, run], hv', ht'⟩

/-- The last call of a successful `heap.Pop` or `heap.Remove` is the stack's
`Pop`, which reports the item it returns gone. -/
theorem reported_gone {s3 s' : Sstack α} {x : Option (Item α)} (hv : s3.Valid) (ht : s3.Tracked)
    (nonempty : 0 < s3.size) (run : s3.Pop = .ok (s', x)) :
    ∃ it, x = some it ∧ Sstack.lastReport s'.reported it.value = some (-1) := by
  obtain ⟨it, last⟩ := hv.entry_some (show s3.size - 1 < s3.size by omega)
  obtain ⟨t, run', -, -, -, reported, -⟩ := Sstack.Pop_spec hv nonempty last
  rw [run, Except.ok.injEq, Prod.mk.injEq] at run'
  obtain ⟨rfl, rfl⟩ := run'
  refine ⟨it, rfl, ?_⟩
  rw [reported, Sstack.logged_of_setIndex ht.setIndex, Sstack.lastReport_append_singleton, if_pos rfl]

/-- `Pop` returns a value that its last report says is gone. -/
theorem indexed_pop {p p' : Prque α} (h : Indexed p) {v : α} {pri : Int64} (run : p.Pop = .ok (p', v, pri)) :
    Indexed p' ∧ Sstack.lastReport p'.cont.reported v = some (-1) := by
  obtain ⟨⟨s', x⟩, popped, run⟩ := Except.bind_eq_ok_iff.mp run
  have nonempty : 0 < p.cont.size := Nat.pos_of_ne_zero fun empty => Sstack.pop_empty empty _ popped
  obtain ⟨s2, x2, popped2, ⟨hv', ht'⟩, -, -⟩ := GoHeap.pop_refines refines_tracked ⟨h.valid, h.tracked⟩ nonempty
  obtain ⟨s3, ⟨hv3, ht3⟩, len3, last⟩ := GoHeap.pop_last refines_tracked ⟨h.valid, h.tracked⟩ nonempty
  rw [popped, Except.ok.injEq, Prod.mk.injEq] at popped2
  obtain ⟨rfl, rfl⟩ := popped2
  rw [last] at popped
  obtain ⟨it, rfl, gone⟩ := reported_gone hv3 ht3 len3 popped
  simp only [deref_some, Except.pure_eq_ok] at run
  obtain ⟨rfl, rfl, -⟩ := run
  exact ⟨⟨hv', ht'⟩, gone⟩

/-- `Remove` that returns an item reports it gone. -/
theorem indexed_remove {p p' : Prque α} (h : Indexed p) {i : Int} {it : Item α}
    (run : p.Remove i = .ok (p', some it)) :
    Indexed p' ∧ Sstack.lastReport p'.cont.reported it.value = some (-1) := by
  unfold Remove at run
  split at run
  · simp at run
  · obtain ⟨⟨s', x⟩, removed, run⟩ := Except.bind_eq_ok_iff.mp run
    have inside : i.toNat < p.cont.size := Nat.lt_of_not_le fun past =>
      Sstack.remove_past_size h.valid h.tracked.setIndex past _ removed
    obtain ⟨s2, x2, removed2, ⟨hv', ht'⟩, -, -⟩ :=
      GoHeap.remove_refines refines_tracked ⟨h.valid, h.tracked⟩ inside
    obtain ⟨s3, ⟨hv3, ht3⟩, len3, last⟩ := GoHeap.remove_last refines_tracked ⟨h.valid, h.tracked⟩ inside
    rw [removed, Except.ok.injEq, Prod.mk.injEq] at removed2
    obtain ⟨rfl, rfl⟩ := removed2
    rw [last] at removed
    obtain ⟨it', rfl, gone⟩ := reported_gone hv3 ht3 len3 removed
    simp only [Except.pure_eq_ok, Except.ok.injEq, Prod.mk.injEq, Option.some_inj] at run
    obtain ⟨rfl, rfl⟩ := run
    exact ⟨⟨hv', ht'⟩, gone⟩

/-- `Remove` at the index last reported for a value removes that value. -/
theorem remove_at_report {p : Prque α} (h : Indexed p) {v : α} {i : Int}
    (last : Sstack.lastReport p.cont.reported v = some i) (nonneg : 0 ≤ i) :
    ∃ p' it, p.Remove i = .ok (p', some it) ∧ it.value = v := by
  -- a value reported at an index it still holds is held there
  have held : Sstack.Held p.cont v := by
    by_contra absent
    rcases h.tracked.gone v absent with never | gone
    · rw [last] at never
      cases never
    · rw [last, Option.some_inj] at gone
      omega
  obtain ⟨it, mem, rfl⟩ := held
  obtain ⟨q, hq, at_q⟩ := Array.mem_iff_getElem.mp mem
  rw [Sstack.getElem_heap] at at_q
  have inside : q < p.cont.size := by simpa using hq
  have reported := h.tracked.current q inside it at_q
  rw [last, Option.some_inj] at reported
  subst reported
  obtain ⟨s', x, removed, -, -, abs⟩ := GoHeap.remove_refines Sstack.refines_arrayHeap h.valid inside
  obtain ⟨rfl, -⟩ := GoHeap.remove_getElem indexOutOfRange (by simpa using inside) abs
  refine ⟨⟨s'⟩, it, ?_, rfl⟩
  simp [Remove, removed, at_q]

/-- With a callback, reports stay accurate: `New` starts so, and from a queue
where they are, every item was last reported at its position and every value
not held was last reported gone or never; `Push` of a value not held keeps
them so, `Pop` and `Remove` keep them so and report what they return gone, and
`Remove` at a value's last reported index returns that value. -/
theorem Prque_reports_positions :
    Indexed (New true : Prque α) ∧
      ∀ p : Prque α, Indexed p →
        (∀ q (hq : q < (Sstack.heap p.cont).size) it, (Sstack.heap p.cont)[q] = some it →
          Sstack.lastReport p.cont.reported it.value = some (q : Int)) ∧
        (∀ v, ¬Sstack.Held p.cont v →
          Sstack.lastReport p.cont.reported v = none ∨ Sstack.lastReport p.cont.reported v = some (-1)) ∧
        (∀ v pri, ¬Sstack.Held p.cont v → ∃ p', p.Push v pri = .ok p' ∧ Indexed p') ∧
        (∀ p' v pri, p.Pop = .ok (p', v, pri) → Indexed p' ∧ Sstack.lastReport p'.cont.reported v = some (-1)) ∧
        (∀ i p' it, p.Remove i = .ok (p', some it) →
          Indexed p' ∧ Sstack.lastReport p'.cont.reported it.value = some (-1)) ∧
        (∀ v i, Sstack.lastReport p.cont.reported v = some i → 0 ≤ i →
          ∃ p' it, p.Remove i = .ok (p', some it) ∧ it.value = v) :=
  ⟨indexed_new, fun _ h =>
    ⟨fun q hq it hit => h.tracked.current q (by simpa using hq) it (by simpa using hit), h.tracked.gone,
      fun _ pri fresh => indexed_push h fresh pri, fun _ _ _ run => indexed_pop h run,
      fun _ _ _ run => indexed_remove h run, fun _ _ last nonneg => remove_at_report h last nonneg⟩⟩

theorem Prque_reports_positions_first_push :
    ∃ p', (New true : Prque Nat).Push 7 1 = .ok p' ∧ Indexed p' :=
  (Prque_reports_positions.2 (New true) Prque_reports_positions.1).2.2.1 7 1 fun ⟨_, mem, _⟩ => by
    simp [Sstack.heap, New, newSstack] at mem

end Indexed

/-- A value pushed twice: the second copy goes to the root and is popped, which
reports the value gone while the first copy is still held at position 0. -/
theorem Pop_duplicate_reported_gone :
    ((do let p ← (New true : Prque Nat).Push 0 1; let p ← p.Push 0 2; p.Pop).map
      fun (r : Prque Nat × Nat × Int64) => ((Sstack.heap r.1.cont).toList, Sstack.lastReport r.1.cont.reported 0)) =
      .ok ([some ⟨0, 1⟩], some (-1)) := by
  decide +kernel

end Prque

end FiscoBcos
