import Mathlib

/-!
# Reading a map after updates

Mathlib's `AList.replace` writes a new value at a key that is there and
leaves the list as it is otherwise; it states how the keys change but not
what `lookup` reads afterwards. A Go map whose entries are updated through
the pointers it holds is such a list, and these are the reads, with those
after `insert` and `erase`. A function written at one point after another
holds at each point the last value written there (`foldl_update_apply`).
-/

namespace FiscoBcos.Lib

variable {α β : Type} [DecidableEq α]

theorem dlookup_kreplace (k a : α) (v : β) :
    ∀ l : List (Σ _ : α, β), (l.kreplace k v).dlookup a = if a = k ∧ k ∈ l.keys then some v else l.dlookup a
  | [] => by simp [List.kreplace]
  | ⟨b, w⟩ :: l => by
    have step : (⟨b, w⟩ :: l : List (Σ _ : α, β)).kreplace k v =
        if k = b then ⟨k, v⟩ :: l else ⟨b, w⟩ :: l.kreplace k v := by
      by_cases hk : k = b
      · subst hk
        simp [List.kreplace, List.lookmap_cons_some]
      · simp [List.kreplace, List.lookmap_cons_none, hk]
    rw [step]
    simp only [List.keys_cons, List.mem_cons]
    by_cases hk : k = b
    · subst hk
      by_cases ha : a = k
      · subst ha
        simp
      · simp [ha]
    · have ih := dlookup_kreplace k a v l
      by_cases ha : a = b
      · subst ha
        simp [hk, Ne.symm hk]
      · simp [hk, ha, ih]

/-- What `lookup` reads after `replace`: the new value at the key, when the
key was there. -/
theorem lookup_replace (s : AList fun _ : α => β) (k a : α) (v : β) :
    (s.replace k v).lookup a = if a = k ∧ k ∈ s then some v else s.lookup a := by
  have read := dlookup_kreplace k a v s.entries
  simp only [AList.mem_keys, AList.keys]
  exact read

theorem lookup_insert (s : AList fun _ : α => β) (k a : α) (v : β) :
    (s.insert k v).lookup a = if a = k then some v else s.lookup a := by
  by_cases h : a = k
  · subst h
    simp
  · simp [AList.lookup_insert_ne h, h]

theorem lookup_erase (s : AList fun _ : α => β) (k a : α) :
    (s.erase k).lookup a = if a = k then none else s.lookup a := by
  by_cases h : a = k
  · subst h
    simp [AList.lookup_erase]
  · simp [AList.lookup_erase_ne h, h]

/-- After a sequence of writes to a function, each point holds the last value
written to it, or its old value when none was. -/
theorem foldl_update_apply {γ : Type} (key : γ → α) (val : γ → β) (f : α → β) (a : α) (ws : List γ) :
    ws.foldl (fun f w => Function.update f (key w) (val w)) f a =
      ((ws.reverse.find? fun w => key w = a).map val).getD (f a) := by
  induction ws using List.reverseRecOn with
  | nil => rfl
  | append_singleton ws w ih =>
    rw [List.foldl_append, List.foldl_cons, List.foldl_nil, Function.update_apply, ih, List.reverse_append,
      List.reverse_singleton, List.singleton_append, List.find?_cons]
    by_cases hit : key w = a
    · simp [hit]
    · simp [hit, Ne.symm hit]

end FiscoBcos.Lib
