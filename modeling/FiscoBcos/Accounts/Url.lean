import Mathlib

/-!
# Wallet and account URLs

`accounts/url.go`: a URL is a scheme and a path, and `URL.Cmp` orders URLs by
scheme first and then by path, each with `strings.Compare`. `Cmp` decides the
lexicographic order on the pair (`URL.Cmp_nonneg`, `URL.Cmp_eq_zero`), which
is what the sorted wallet and account lists are sorted by.

Go compares strings byte by byte. The model's strings are Lean strings,
compared character by character; on the UTF-8 encodings the two orders
agree.
-/

namespace FiscoBcos.Accounts

/-- `accounts.URL`. -/
structure URL where
  Scheme : String
  Path : String
deriving DecidableEq, Repr

/-- `strings.Compare`. -/
def stringsCompare (a b : String) : Int :=
  if a = b then 0 else if a < b then -1 else 1

/-- `URL.Cmp`. -/
def URL.Cmp (u url : URL) : Int :=
  if u.Scheme = url.Scheme then stringsCompare u.Path url.Path
  else stringsCompare u.Scheme url.Scheme

/-- The order `Cmp` decides: lexicographic on the scheme, then the path. -/
def URL.key (u : URL) : String ×ₗ String := toLex (u.Scheme, u.Path)

theorem stringsCompare_nonneg {a b : String} : 0 ≤ stringsCompare a b ↔ b ≤ a := by
  unfold stringsCompare
  split_ifs with eq lt
  · simp [eq]
  · simp [lt]
  · simp only [Int.reduceLE, true_iff]
    exact le_of_lt (lt_of_le_of_ne (not_lt.mp lt) (Ne.symm eq))

theorem stringsCompare_eq_zero {a b : String} : stringsCompare a b = 0 ↔ a = b := by
  unfold stringsCompare
  split_ifs with eq lt <;> simp [eq]

theorem URL.key_injective : Function.Injective URL.key := by
  intro u v eq
  cases u
  cases v
  simpa [URL.key] using eq

namespace URL

variable {u v : URL}

theorem Cmp_nonneg : 0 ≤ u.Cmp v ↔ v.key ≤ u.key := by
  rw [Cmp, key, key, Prod.Lex.toLex_le_toLex]
  split_ifs with same
  · rw [stringsCompare_nonneg]
    simp [same]
  · rw [stringsCompare_nonneg]
    have differ : v.Scheme ≠ u.Scheme := Ne.symm same
    simp only [differ, false_and, or_false]
    exact ⟨fun le => lt_of_le_of_ne le differ, le_of_lt⟩

theorem Cmp_eq_zero : u.Cmp v = 0 ↔ u = v := by
  rw [Cmp]
  split_ifs with same
  · rw [stringsCompare_eq_zero]
    cases u
    cases v
    simp_all
  · rw [stringsCompare_eq_zero]
    exact ⟨fun eq => absurd eq same, fun eq => absurd (congrArg Scheme eq) same⟩

end URL

end FiscoBcos.Accounts
