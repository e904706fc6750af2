import Mathlib

/-!
# Computing with `Except`

Simp lemmas that run `Except.bind`, `Except.map` and `Except.mapError` on a
known result, and the inversion lemma for a successful `bind`, which peels a
sequence of fallible steps apart without unfolding them.

`Except.Rel r` relates the results of two runs that go in step: the same
error, or values that `r` relates. Its `bind` rule carries a simulation of
one program by another through each fallible step.
-/

namespace Except

variable {ε ε' α β : Type _}

@[simp] theorem bind_ok_eq (a : α) (f : α → Except ε β) :
    (Except.ok a : Except ε α).bind f = f a := rfl

@[simp] theorem bind_error_eq (e : ε) (f : α → Except ε β) :
    (Except.error e : Except ε α).bind f = .error e := rfl

@[simp] theorem map_ok_eq (f : α → β) (a : α) :
    (Except.ok a : Except ε α).map f = .ok (f a) := rfl

@[simp] theorem map_error_eq (f : α → β) (e : ε) :
    (Except.error e : Except ε α).map f = .error e := rfl

@[simp] theorem mapError_ok_eq (f : ε → ε') (a : α) :
    (Except.ok a : Except ε α).mapError f = .ok a := rfl

@[simp] theorem mapError_error_eq (f : ε → ε') (e : ε) :
    (Except.error e : Except ε α).mapError f = .error (f e) := rfl

/-- The monad's bind is `Except.bind`. -/
@[simp] theorem bind_eq_bind (x : Except ε α) (f : α → Except ε β) : x >>= f = x.bind f := rfl

/-- The functor's map is `Except.map`. -/
@[simp] theorem map_eq_map (f : α → β) (x : Except ε α) : f <$> x = x.map f := rfl

@[simp] theorem pure_eq_ok (a : α) : (pure a : Except ε α) = .ok a := rfl

@[simp] theorem bind_pure_eq (x : Except ε α) : x.bind pure = x := by
  cases x <;> rfl

/-- A `bind` succeeds exactly when both of its steps do. -/
theorem bind_eq_ok_iff {x : Except ε α} {f : α → Except ε β} {b : β} :
    x.bind f = .ok b ↔ ∃ a, x = .ok a ∧ f a = .ok b := by
  cases x <;> simp

theorem map_eq_ok_iff {x : Except ε α} {f : α → β} {b : β} :
    x.map f = .ok b ↔ ∃ a, x = .ok a ∧ f a = b := by
  cases x <;> simp

theorem mapError_eq_ok_iff {x : Except ε α} {f : ε → ε'} {a : α} : x.mapError f = .ok a ↔ x = .ok a := by
  cases x <;> simp

/-- What holds of the value of a run that returns holds of the value it
returned. -/
theorem of_exists_ok {P : α → Prop} {x : Except ε α} {a : α} (run : x = .ok a) (h : ∃ b, x = .ok b ∧ P b) :
    P a := by
  obtain ⟨b, run', hb⟩ := h
  rw [run, Except.ok.injEq] at run'
  exact run' ▸ hb

/-- A loop of fallible steps that each succeed as a pure step does on states
of some form `e s` runs as the pure loop. -/
theorem foldlM_eq_ok_foldl {γ : Type _} {f : β → α → Except ε β} {g : γ → α → γ} (e : γ → β)
    (step : ∀ s a, f (e s) a = .ok (e (g s a))) : ∀ (l : List α) (s : γ), l.foldlM f (e s) = .ok (e (l.foldl g s))
  | [], _ => rfl
  | a :: l, s => by
    rw [List.foldlM_cons, step, bind_eq_bind, bind_ok_eq, List.foldl_cons]
    exact foldlM_eq_ok_foldl e step l (g s a)

/-- A loop succeeds when each step, from a state where the invariant holds
for the items left, succeeds and re-establishes it for the rest. -/
theorem foldlM_ok_of_step {f : β → α → Except ε β} (I : List α → β → Prop)
    (step : ∀ a l b, I (a :: l) b → ∃ b', f b a = .ok b' ∧ I l b') :
    ∀ (l : List α) (b : β), I l b → ∃ r, l.foldlM f b = .ok r ∧ I [] r
  | [], b, hb => ⟨b, rfl, hb⟩
  | a :: l, b, hb => by
    obtain ⟨b', run, hb'⟩ := step a l b hb
    obtain ⟨r, loop, hr⟩ := foldlM_ok_of_step I step l b' hb'
    exact ⟨r, by rw [List.foldlM_cons, run, bind_eq_bind, bind_ok_eq, loop], hr⟩

/-! ## Two runs in step -/

/-- Two results related by `r`: the same error, or values that `r` relates. -/
inductive Rel {α β : Type _} (r : α → β → Prop) : Except ε α → Except ε β → Prop
  | ok {a : α} {b : β} : r a b → Rel r (.ok a) (.ok b)
  | error (e : ε) : Rel r (.error e) (.error e)

namespace Rel

variable {γ δ : Type _} {r : α → β → Prop} {s : γ → δ → Prop}

/-- Steps that keep related values related keep the runs related. -/
theorem bind {x : Except ε α} {y : Except ε β} {f : α → Except ε γ} {g : β → Except ε δ} (h : Rel r x y)
    (step : ∀ a b, r a b → Rel s (f a) (g b)) : Rel s (x.bind f) (y.bind g) := by
  cases h with
  | ok hab => exact step _ _ hab
  | error e => exact .error e

/-- One run of a first step, followed by two steps related on each of its
values. -/
theorem bind_same {x : Except ε α} {f : α → Except ε γ} {g : α → Except ε δ}
    (step : ∀ a, Rel s (f a) (g a)) : Rel s (x.bind f) (x.bind g) := by
  cases x with
  | ok a => exact step a
  | error e => exact .error e

theorem map {x : Except ε α} {y : Except ε β} {f : α → γ} {g : β → δ} (h : Rel r x y)
    (step : ∀ a b, r a b → s (f a) (g b)) : Rel s (x.map f) (y.map g) := by
  cases h with
  | ok hab => exact .ok (step _ _ hab)
  | error e => exact .error e

/-- What the first run returns, the second returns in relation. -/
theorem of_ok_left {x : Except ε α} {y : Except ε β} {a : α} (h : Rel r x y) (run : x = .ok a) :
    ∃ b, y = .ok b ∧ r a b := by
  subst run
  cases h with
  | ok hab => exact ⟨_, rfl, hab⟩

theorem of_ok_right {x : Except ε α} {y : Except ε β} {b : β} (h : Rel r x y) (run : y = .ok b) :
    ∃ a, x = .ok a ∧ r a b := by
  subst run
  cases h with
  | ok hab => exact ⟨_, rfl, hab⟩

end Rel

end Except
