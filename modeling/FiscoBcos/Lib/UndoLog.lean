import FiscoBcos.Lib.Except
import Mathlib

/-!
# Undo logs

A journal records, for each change made to a state, an entry that undoes it;
a rollback undoes the entries after a mark, the last one first. This module
states that pattern over an arbitrary state `σ`, entries `ε` and a partial
undo `undo : ε → σ → Option σ`.

* `undoAll` undoes a list of entries, the last first, and `Undoes v es w`
  says that it takes `w` back to `v`. Changes that append entries compose
  (`Undoes.append`), and a rollback to any mark in between splits the log
  (`Undoes.split`).
* A concrete state `τ` with a fallible undo `revert` and a view `view : τ → σ`
  simulates the abstract one when each concrete step does what the abstract
  step says of the view (`revertAll_of_undoes`): the concrete rollback then
  succeeds and restores the view.
-/

namespace UndoLog

section Abstract

variable {σ ε : Type _} (undo : ε → σ → Option σ)

/-- Undo the entries `es` from `w`, the last entry first. -/
def undoAll : List ε → σ → Option σ
  | [], w => some w
  | e :: es, w => (undoAll es w).bind (undo e)

/-- Undoing `es` from `w` gives back `v`. -/
def Undoes (v : σ) (es : List ε) (w : σ) : Prop := undoAll undo es w = some v

variable {undo}

@[simp] theorem undoAll_nil (w : σ) : undoAll undo [] w = some w := rfl

@[simp] theorem undoAll_cons (e : ε) (es : List ε) (w : σ) :
    undoAll undo (e :: es) w = (undoAll undo es w).bind (undo e) := rfl

/-- The later entries are undone before the earlier ones. -/
theorem undoAll_append (es₁ es₂ : List ε) (w : σ) :
    undoAll undo (es₁ ++ es₂) w = (undoAll undo es₂ w).bind (undoAll undo es₁) := by
  induction es₁ with
  | nil =>
    rw [List.nil_append]
    cases undoAll undo es₂ w <;> rfl
  | cons e es₁ ih =>
    rw [List.cons_append, undoAll_cons, ih]
    cases undoAll undo es₂ w <;> rfl

theorem Undoes.nil (v : σ) : Undoes undo v [] v := rfl

theorem Undoes.single {e : ε} {v w : σ} (h : undo e w = some v) : Undoes undo v [e] w := h

/-- A change logged after another is undone first. -/
theorem Undoes.append {v u w : σ} {es₁ es₂ : List ε} (h₁ : Undoes undo v es₁ u)
    (h₂ : Undoes undo u es₂ w) : Undoes undo v (es₁ ++ es₂) w := by
  unfold Undoes at *
  rw [undoAll_append, h₂]
  exact h₁

/-- Undoing back to a mark inside the log passes through the state at the mark. -/
theorem Undoes.split {v w : σ} {es₁ es₂ : List ε} (h : Undoes undo v (es₁ ++ es₂) w) :
    ∃ u, Undoes undo u es₂ w ∧ Undoes undo v es₁ u := by
  unfold Undoes at *
  rw [undoAll_append] at h
  cases hw : undoAll undo es₂ w with
  | none => rw [hw] at h; cases h
  | some u =>
    rw [hw] at h
    exact ⟨u, rfl, h⟩

end Abstract

section Concrete

variable {σ ε τ δ : Type _} (revert : ε → τ → Except δ τ)

/-- Revert the entries `es` of a concrete state, the last entry first. -/
def revertAll : List ε → τ → Except δ τ
  | [], t => .ok t
  | e :: es, t => (revertAll es t).bind (revert e)

variable {revert} {undo : ε → σ → Option σ} {view : τ → σ}

/-- A concrete rollback of entries that each revert as the abstract undo says
restores the view, and keeps the invariant `ok` its steps keep. -/
theorem revertAll_of_undoes {ok : τ → Prop} {es : List ε}
    (sim : ∀ e ∈ es, ∀ t v, ok t → undo e (view t) = some v →
      ∃ t', revert e t = .ok t' ∧ view t' = v ∧ ok t') :
    ∀ {t : τ} {v : σ}, ok t → Undoes undo v es (view t) →
      ∃ t', revertAll revert es t = .ok t' ∧ view t' = v ∧ ok t' := by
  induction es with
  | nil =>
    intro t v good h
    exact ⟨t, rfl, Option.some.inj h, good⟩
  | cons e es ih =>
    intro t v good h
    unfold Undoes at h
    rw [undoAll_cons] at h
    obtain ⟨u, later, first⟩ := Option.bind_eq_some_iff.mp h
    obtain ⟨t₁, run₁, view₁, good₁⟩ :=
      ih (fun e' mem => sim e' (List.mem_cons_of_mem e mem)) good later
    obtain ⟨t₂, run₂, view₂, good₂⟩ := sim e (List.mem_cons_self ..) t₁ v good₁ (view₁ ▸ first)
    refine ⟨t₂, ?_, view₂, good₂⟩
    rw [revertAll, run₁, Except.bind_ok_eq, run₂]

/-- A rollback that succeeds keeps an invariant that each of its steps keeps,
whatever the entries undo. -/
theorem revertAll_invariant {ok : τ → Prop} {es : List ε}
    (step : ∀ e ∈ es, ∀ t t', ok t → revert e t = .ok t' → ok t') :
    ∀ {t t' : τ}, ok t → revertAll revert es t = .ok t' → ok t' := by
  induction es with
  | nil =>
    intro t t' good run
    cases run
    exact good
  | cons e es ih =>
    intro t t' good run
    rw [revertAll] at run
    obtain ⟨t₁, later, first⟩ := Except.bind_eq_ok_iff.mp run
    have good₁ := ih (fun e' mem => step e' (List.mem_cons_of_mem e mem)) good later
    exact step e (List.mem_cons_self ..) t₁ t' good₁ first

end Concrete

end UndoLog
