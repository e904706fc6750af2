import Mathlib

/-!
# Doubly linked lists threaded through a store

A store of cells, each with a `next` and a `prev` field, holds a doubly
linked list when following `next` from the first cell walks a list of cells,
each cell's successor points back at it with `prev`, and the last cell's
`next` is a sentinel `nil`. The `prev` of the first cell is not part of the
list: a store may leave anything there.

The operations on such a list change the fields of a few cells. `Linked`
depends only on the `next` of the cells on the list and the `prev` of all but
the first (`Linked.congr`), so each operation is stated by what it writes
there: unlinking the first, the last or an inner cell (`Linked.tail`,
`Linked.dropLast`, `Linked.unlink`), and appending a cell (`Linked.push`).
Which of the three unlinkings applies, and which cells it writes, the fields
of the cell itself say (`Linked.next_eq`, `Linked.prev_eq`).
-/

namespace FiscoBcos.Lib

variable {α : Type} (nil : α) (next prev : α → α)

/-- Two consecutive cells: the first's `next` is the second, the second's
`prev` the first. -/
def Step (a b : α) : Prop := next a = b ∧ prev b = a

/-- `cells` is the list that `next` walks and `prev` walks back, ended by
`nil`. -/
def Linked (cells : List α) : Prop :=
  cells.IsChain (Step next prev) ∧ ∀ a ∈ cells.getLast?, next a = nil

variable {nil next prev}

/-- A chain of steps depends only on the `next` of the cells that have a
successor and the `prev` of the cells that have a predecessor. -/
theorem isChain_step_congr {next' prev' : α → α} :
    ∀ {cells : List α}, cells.IsChain (Step next prev) →
      (∀ a ∈ cells.dropLast, next' a = next a) → (∀ b ∈ cells.tail, prev' b = prev b) →
      cells.IsChain (Step next' prev')
  | [], _, _, _ => .nil
  | [a], _, _, _ => .singleton a
  | a :: b :: rest, chain, sameNext, samePrev => by
    rw [List.isChain_cons_cons] at chain ⊢
    obtain ⟨⟨stepNext, stepPrev⟩, chain⟩ := chain
    refine ⟨⟨(sameNext a (by simp)).trans stepNext, (samePrev b (by simp)).trans stepPrev⟩, ?_⟩
    refine isChain_step_congr chain (fun c hc => sameNext c ?_) (fun c hc => samePrev c ?_)
    · rw [List.dropLast_cons_cons]
      exact List.mem_cons_of_mem a hc
    · exact List.mem_of_mem_tail hc

theorem Linked.congr {next' prev' : α → α} {cells : List α} (h : Linked nil next prev cells)
    (sameNext : ∀ a ∈ cells, next' a = next a) (samePrev : ∀ b ∈ cells.tail, prev' b = prev b) :
    Linked nil next' prev' cells := by
  obtain ⟨chain, last⟩ := h
  refine ⟨isChain_step_congr chain (fun a ha => sameNext a (List.dropLast_subset _ ha)) samePrev,
    fun a ha => ?_⟩
  rw [sameNext a (List.mem_of_getLast? ha)]
  exact last a ha

/-- In a list without repetitions, no cell before the last is the last. -/
theorem ne_getLast_of_mem_dropLast {cells : List α} (nodup : cells.Nodup) (ne : cells ≠ []) {b : α}
    (mem : b ∈ cells.dropLast) : b ≠ cells.getLast ne := by
  rintro rfl
  have split := List.dropLast_append_getLast ne
  rw [← split, List.nodup_append] at nodup
  exact nodup.2.2 _ mem _ (List.mem_singleton_self _) rfl

/-- In a list without repetitions, no cell after the first is the first. -/
theorem ne_head_of_mem_tail {cells : List α} (nodup : cells.Nodup) (ne : cells ≠ []) {b : α}
    (mem : b ∈ cells.tail) : b ≠ cells.head ne := by
  cases cells with
  | nil => exact absurd rfl ne
  | cons a rest =>
    rintro rfl
    exact (List.nodup_cons.mp nodup).1 mem

/-! ## Where a cell's fields point -/

/-- The `next` of a cell is the cell after it, or `nil` after the last. -/
theorem Linked.next_eq {before after : List α} {a : α} (h : Linked nil next prev (before ++ a :: after)) :
    next a = after.headD nil := by
  obtain ⟨chain, last⟩ := h
  cases after with
  | nil => simpa using last a
  | cons b after =>
    have := (List.isChain_append_cons_cons.mp chain).2.1
    exact this.1

/-- The `prev` of a cell other than the first is the cell before it. -/
theorem Linked.prev_eq {before after : List α} {a : α} (h : Linked nil next prev (before ++ a :: after))
    (ne : before ≠ []) : prev a = before.getLast ne := by
  have step := h.1.rel_getLast_head_of_append ne (List.cons_ne_nil a after)
  exact step.2

/-! ## Unlinking a cell -/

/-- Unlinking the first cell leaves the rest linked. -/
theorem Linked.tail {a : α} {rest : List α} (h : Linked nil next prev (a :: rest)) :
    Linked nil next prev rest := by
  obtain ⟨chain, last⟩ := h
  refine ⟨chain.tail, fun b hb => last b ?_⟩
  cases rest with
  | nil => simp at hb
  | cons c rest => simpa [List.getLast?_cons_cons] using hb

/-- Unlinking the last cell, by ending the list at the cell before it. -/
theorem Linked.dropLast {init : List α} {a : α} (h : Linked nil next prev (init ++ [a]))
    {next' : α → α} (ne : init ≠ []) (endsBefore : next' (init.getLast ne) = nil)
    (sameNext : ∀ b ∈ init.dropLast, next' b = next b) :
    Linked nil next' prev init := by
  refine ⟨isChain_step_congr h.1.left_of_append sameNext fun _ _ => rfl, fun b hb => ?_⟩
  rw [List.getLast?_eq_some_getLast ne] at hb
  cases hb
  exact endsBefore

/-- Unlinking an inner cell, by linking the cells on its two sides to each
other. -/
theorem Linked.unlink {before after : List α} {a : α} (h : Linked nil next prev (before ++ a :: after))
    {next' prev' : α → α} (neBefore : before ≠ []) (neAfter : after ≠ [])
    (linkNext : next' (before.getLast neBefore) = after.head neAfter)
    (linkPrev : prev' (after.head neAfter) = before.getLast neBefore)
    (sameNext : ∀ b ∈ before.dropLast ++ after, next' b = next b)
    (samePrev : ∀ b ∈ before.tail ++ after.tail, prev' b = prev b) :
    Linked nil next' prev' (before ++ after) := by
  obtain ⟨chain, last⟩ := h
  obtain ⟨chainBefore, chainAfter, -⟩ := List.isChain_append.mp chain
  have chainBefore' : before.IsChain (Step next' prev') :=
    isChain_step_congr chainBefore (fun b hb => sameNext b (List.mem_append_left _ hb))
      (fun b hb => samePrev b (List.mem_append_left _ hb))
  have chainAfter' : after.IsChain (Step next' prev') :=
    isChain_step_congr chainAfter.tail
      (fun b hb => sameNext b (List.mem_append_right _ (List.dropLast_subset _ hb)))
      (fun b hb => samePrev b (List.mem_append_right _ hb))
  refine ⟨chainBefore'.append chainAfter' fun b hb c hc => ?_, fun b hb => ?_⟩
  · rw [List.getLast?_eq_some_getLast neBefore, Option.mem_some_iff] at hb
    rw [List.head?_eq_some_head neAfter, Option.mem_some_iff] at hc
    subst hb hc
    exact ⟨linkNext, linkPrev⟩
  · -- the last cell is the old last one, whose `next` is unchanged
    rw [List.getLast?_append_of_ne_nil _ neAfter] at hb
    have lastAfter : b ∈ (before ++ a :: after).getLast? := by
      rw [List.getLast?_append_of_ne_nil _ (List.cons_ne_nil a after), List.getLast?_cons]
      simpa [List.getLast?_eq_some_getLast neAfter] using hb
    rw [sameNext b (List.mem_append_right _ (List.mem_of_getLast? hb))]
    exact last b lastAfter

/-! ## Appending a cell -/

/-- Appending a cell after the last: the old last cell's `next` and the new
cell's `prev` point at each other, and the new cell's `next` is `nil`. -/
theorem Linked.push {cells : List α} {a : α} (h : Linked nil next prev cells) {next' prev' : α → α}
    (endsAt : next' a = nil) (linkNext : ∀ b ∈ cells.getLast?, next' b = a)
    (linkPrev : ∀ b ∈ cells.getLast?, prev' a = b)
    (sameNext : ∀ b ∈ cells.dropLast, next' b = next b) (samePrev : ∀ b ∈ cells.tail, prev' b = prev b) :
    Linked nil next' prev' (cells ++ [a]) := by
  refine ⟨(isChain_step_congr h.1 sameNext samePrev).append (.singleton a) fun b hb c hc => ?_,
    fun b hb => ?_⟩
  · rw [List.head?_cons, Option.mem_some_iff] at hc
    subst hc
    exact ⟨linkNext b hb, linkPrev b hb⟩
  · rw [List.getLast?_concat, Option.mem_some_iff] at hb
    subst hb
    exact endsAt

end FiscoBcos.Lib
