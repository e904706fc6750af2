import FiscoBcos.Accounts.Url
import FiscoBcos.Lib.SortedSearch
import FiscoBcos.State.Object
import Mathlib

/-!
# The keystore's account cache

`accounts/keystore/account_cache.go`: the cache indexes the accounts of the
key files twice, in `all`, sorted by URL, and in `byAddr`, a map from an
address to its accounts. `add` inserts at the position `sort.Search` finds
for the URL and appends to the address's list; `delete` and `deleteByFile`
splice an entry out of `all` and out of its address's list.

Every run of the three operations keeps `all` sorted and keeps both indexes
holding the same accounts: for every address, the map's list is a
permutation of the entries of `all` with that address, and no entry of the
map is empty (`run_consistent`). `add` is idempotent only while no two
accounts share a URL (`add_present`). It compares the new account with the
one entry at the search position, so after two accounts of one URL (a key
file rewritten with another address) a repeated `add` inserts a duplicate
(`add_repeated_inserts_duplicate`).

Left out: the watcher, the reload throttle and the file cache, which decide
when `scanAccounts` calls the three operations but not what they do, and
`find`, which only reads the indexes.
-/

namespace FiscoBcos.Accounts

open Search
open State (Address)

/-- `accounts.Account`. -/
structure Account where
  Address : Address
  URL : URL
deriving DecidableEq, Repr

/-- `KeyStoreScheme`. -/
def KeyStoreScheme : String := "keystore"

/-- The indexes of `accountCache`: `all`, and `byAddr` as a Go map, `none`
at an address the map does not hold. -/
structure AccountCache where
  all : List Account
  byAddr : Address → Option (List Account)

namespace AccountCache

/-- `newAccountCache`: both indexes empty. -/
def newAccountCache : AccountCache := ⟨[], fun _ => none⟩

/-- `ac.byAddr[addr]`: a missing entry reads as the empty slice. -/
def lookup (ac : AccountCache) (addr : Address) : List Account := (ac.byAddr addr).getD []

/-- `removeAccount`: the loop returns at the first entry equal to `elem`, with
that entry spliced out. -/
def removeAccount : List Account → Account → List Account
  | [], _ => []
  | a :: rest, elem => if a = elem then rest else a :: removeAccount rest elem

/-- The `sort.Search` of `add`: the first entry whose URL is at least the new
account's. -/
def searchURL (all : List Account) (newAccount : Account) : Nat :=
  search all.length fun i => all[i]?.all fun a => decide (a.URL.Cmp newAccount.URL ≥ 0)

/-- `add`. The new account is compared with the entry at the search position
only. -/
def add (ac : AccountCache) (newAccount : Account) : AccountCache :=
  let i := searchURL ac.all newAccount
  -- `i < len(ac.all) && ac.all[i] == newAccount`
  if ac.all[i]? = some newAccount then ac
  else
    { all := ac.all.take i ++ newAccount :: ac.all.drop i
      byAddr := Function.update ac.byAddr newAccount.Address
        (some (ac.lookup newAccount.Address ++ [newAccount])) }

/-- The `byAddr` update that `delete` and `deleteByFile` share: the account
leaves its address's list, and the entry leaves the map when the list is
empty. -/
def unindex (ac : AccountCache) (removed : Account) : Address → Option (List Account) :=
  let ba := removeAccount (ac.lookup removed.Address) removed
  if ba.length = 0 then Function.update ac.byAddr removed.Address none
  else Function.update ac.byAddr removed.Address (some ba)

/-- `delete`. -/
def delete (ac : AccountCache) (removed : Account) : AccountCache :=
  { all := removeAccount ac.all removed, byAddr := ac.unindex removed }

/-- The `sort.Search` of `deleteByFile`: the first entry whose path is at
least `path`. -/
def searchPath (all : List Account) (path : String) : Nat :=
  search all.length fun i => all[i]?.all fun a => decide (a.URL.Path ≥ path)

/-- `deleteByFile`: the entry at the search position is removed when its path
is `path`. -/
def deleteByFile (ac : AccountCache) (path : String) : AccountCache :=
  let i := searchPath ac.all path
  match ac.all[i]? with
  | some removed =>
    if removed.URL.Path = path then
      { all := ac.all.take i ++ ac.all.drop (i + 1), byAddr := ac.unindex removed }
    else ac
  | none => ac

/-- The calls that `scanAccounts` makes on the cache. -/
inductive Op where
  | add (a : Account)
  | delete (a : Account)
  | deleteByFile (path : String)

/-- One call. -/
def apply (ac : AccountCache) : Op → AccountCache
  | .add a => ac.add a
  | .delete a => ac.delete a
  | .deleteByFile path => ac.deleteByFile path

/-- A sequence of calls. -/
def run (ac : AccountCache) (ops : List Op) : AccountCache := ops.foldl apply ac

/-- The invariant of the two indexes. -/
structure Consistent (ac : AccountCache) : Prop where
  sorted : Sorted (fun a => a.URL.key) ac.all
  index : ∀ addr, (ac.lookup addr).Perm (ac.all.filter fun a => a.Address = addr)
  nonempty : ∀ addr l, ac.byAddr addr = some l → l ≠ []

/-! ## The helpers -/

theorem removeAccount_eq_erase (slice : List Account) (elem : Account) :
    removeAccount slice elem = slice.erase elem := by
  induction slice with
  | nil => rfl
  | cons a rest ih =>
    rw [removeAccount, List.erase_cons, ih]
    simp only [beq_iff_eq]

@[simp] theorem lookup_mk (all : List Account) (byAddr : Address → Option (List Account))
    (addr : Address) : lookup ⟨all, byAddr⟩ addr = (byAddr addr).getD [] := rfl

theorem searchURL_eq (all : List Account) (newAccount : Account) :
    searchURL all newAccount = lowerBound (fun a => a.URL.key) all newAccount.URL.key := by
  unfold searchURL lowerBound keyAtLeast
  congr
  funext i
  congr
  funext w
  simp [URL.Cmp_nonneg]

/-- What `add` does when the entry at the search position is another. -/
theorem add_of_ne {ac : AccountCache} {x : Account} (ne : ac.all[searchURL ac.all x]? ≠ some x) :
    ac.add x =
      { all := ac.all.take (searchURL ac.all x) ++ x :: ac.all.drop (searchURL ac.all x)
        byAddr := Function.update ac.byAddr x.Address (some (ac.lookup x.Address ++ [x])) } := by
  unfold add
  dsimp only
  rw [if_neg ne]

/-- The address list `unindex` leaves is the old one without the account. -/
theorem lookup_unindex (ac : AccountCache) (removed : Account) (all : List Account) (addr : Address) :
    lookup ⟨all, ac.unindex removed⟩ addr =
      if addr = removed.Address then (ac.lookup addr).erase removed else ac.lookup addr := by
  unfold unindex
  dsimp only
  split_ifs with empty same same
  · subst same
    rw [removeAccount_eq_erase, List.length_eq_zero_iff] at empty
    simp only [lookup_mk, Function.update_self, Option.getD_none]
    exact empty.symm
  · simp [Function.update_of_ne same, lookup]
  · subst same
    simp [removeAccount_eq_erase, lookup]
  · simp [Function.update_of_ne same, lookup]

theorem unindex_nonempty (ac : AccountCache) (removed : Account)
    (nonempty : ∀ addr l, ac.byAddr addr = some l → l ≠ []) :
    ∀ addr l, ac.unindex removed addr = some l → l ≠ [] := by
  intro addr l found
  unfold unindex at found
  by_cases same : addr = removed.Address
  · subst same
    split_ifs at found with empty
    · simp at found
    · simp only [Function.update_self, Option.some.injEq] at found
      rw [← found]
      exact fun nil => empty (by rw [nil]; rfl)
  · apply nonempty addr l
    split_ifs at found <;> simpa [Function.update_of_ne same] using found

/-! ## The invariant over every run -/

theorem consistent_newAccountCache : Consistent newAccountCache :=
  ⟨List.Pairwise.nil, fun _ => List.Perm.refl _, fun _ _ found => by simp [newAccountCache] at found⟩

section

variable {ac : AccountCache} (c : Consistent ac)
include c

/-- Inserting `x` anywhere in `all` and appending it to its address's list
keeps the index. -/
theorem Consistent.insert_index (x : Account) (n : Nat) (addr : Address) :
    (lookup ⟨ac.all.take n ++ x :: ac.all.drop n,
        Function.update ac.byAddr x.Address (some (ac.lookup x.Address ++ [x]))⟩ addr).Perm
      ((ac.all.take n ++ x :: ac.all.drop n).filter fun a => a.Address = addr) := by
  have perm : ((ac.all.take n ++ x :: ac.all.drop n).filter fun a => decide (a.Address = addr)).Perm
      (ac.all.filter (fun a => decide (a.Address = addr)) ++
        [x].filter fun a => decide (a.Address = addr)) := by
    rw [← List.filter_append]
    exact (perm_take_cons_drop ac.all n x).filter _
  by_cases same : addr = x.Address
  · subst same
    simp only [lookup_mk, Function.update_self, Option.getD_some]
    have last : [x].filter (fun a => decide (a.Address = x.Address)) = [x] := by simp
    rw [last] at perm
    exact ((c.index x.Address).append_right [x]).trans perm.symm
  · have last : [x].filter (fun a => decide (a.Address = addr)) = [] := by simp [Ne.symm same]
    rw [last, List.append_nil] at perm
    simp only [lookup_mk, Function.update_of_ne same]
    exact (c.index addr).trans perm.symm

theorem Consistent.add (x : Account) : Consistent (ac.add x) := by
  by_cases found : ac.all[searchURL ac.all x]? = some x
  · unfold AccountCache.add
    dsimp only
    rw [if_pos found]
    exact c
  · rw [add_of_ne found]
    refine ⟨?_, c.insert_index x _, ?_⟩
    · rw [searchURL_eq]
      exact (lowerBound_splits c.sorted).insert c.sorted
    · intro addr l hl
      by_cases same : addr = x.Address
      · subst same
        simp only [Function.update_self, Option.some.injEq] at hl
        rw [← hl]
        exact List.append_ne_nil_of_right_ne_nil _ (List.cons_ne_nil x [])
      · exact c.nonempty addr l (by simpa [Function.update_of_ne same] using hl)

/-- Taking one copy of `removed` out of `all`, in any order, and `unindex` of
it keep the index. -/
theorem Consistent.remove_index (removed : Account) {all' : List Account}
    (perm : all'.Perm (ac.all.erase removed)) (addr : Address) :
    (lookup ⟨all', ac.unindex removed⟩ addr).Perm (all'.filter fun a => a.Address = addr) := by
  rw [lookup_unindex]
  have filtered := perm.filter (fun a => decide (a.Address = addr))
  rw [← List.erase_filter] at filtered
  split_ifs with same
  · exact ((c.index addr).erase removed).trans filtered.symm
  · have notIn : removed ∉ ac.all.filter (fun a => decide (a.Address = addr)) := by
      simp only [List.mem_filter, decide_eq_true_eq, not_and]
      exact fun _ eq => same eq.symm
    rw [List.erase_of_not_mem notIn] at filtered
    exact (c.index addr).trans filtered.symm

theorem Consistent.delete (removed : Account) : Consistent (ac.delete removed) := by
  refine ⟨?_, ?_, unindex_nonempty ac removed c.nonempty⟩
  · show Sorted _ (removeAccount ac.all removed)
    rw [removeAccount_eq_erase]
    exact c.sorted.sublist List.erase_sublist
  · exact c.remove_index removed (by rw [removeAccount_eq_erase])

theorem Consistent.deleteByFile (path : String) : Consistent (ac.deleteByFile path) := by
  unfold AccountCache.deleteByFile
  dsimp only
  split
  · rename_i removed found
    split_ifs
    · refine ⟨c.sorted.take_append_drop_succ _, c.remove_index removed
        (perm_take_append_drop_succ_erase found), unindex_nonempty ac removed c.nonempty⟩
    · exact c
  · exact c

theorem Consistent.apply (op : Op) : Consistent (ac.apply op) := by
  cases op with
  | add a => exact c.add a
  | delete a => exact c.delete a
  | deleteByFile path => exact c.deleteByFile path

end

theorem Consistent.run {ac : AccountCache} (c : Consistent ac) (ops : List Op) :
    Consistent (ac.run ops) := by
  induction ops generalizing ac with
  | nil => exact c
  | cons op rest ih => exact ih (c.apply op)

/-- Every sequence of `add`, `delete` and `deleteByFile` calls keeps `all`
sorted by URL and the two indexes holding the same accounts. -/
theorem run_consistent (ops : List Op) : Consistent (newAccountCache.run ops) :=
  Consistent.run consistent_newAccountCache ops

/-! ## Duplicates -/

/-- `add` puts the account first when no entry has a smaller URL and the
first entry is another account. -/
theorem add_all_of_le {ac : AccountCache} (s : Sorted (fun a => a.URL.key) ac.all) {x : Account}
    (le : ∀ a ∈ ac.all, x.URL.key ≤ a.URL.key) (ne : ac.all.head? ≠ some x) :
    (ac.add x).all = x :: ac.all := by
  have first : searchURL ac.all x = 0 := by
    rw [searchURL_eq]
    exact lowerBound_eq s ⟨Nat.zero_le _, by simp, by simpa using le⟩
  have other : ac.all[searchURL ac.all x]? ≠ some x := by
    rwa [first, ← List.head?_eq_getElem?]
  rw [add_of_ne other, first]
  simp

/-- While no other account has its URL, adding an account the cache holds
leaves the cache as it is. -/
theorem add_present {ac : AccountCache} (c : Consistent ac) {x : Account} (mem : x ∈ ac.all)
    (unique : ∀ a ∈ ac.all, a.URL = x.URL → a = x) : ac.add x = ac := by
  have sp := lowerBound_splits (k := x.URL.key) c.sorted
  obtain ⟨h, key⟩ := sp.key_eq c.sorted mem rfl
  have atSearch : ac.all[lowerBound (fun a => a.URL.key) ac.all x.URL.key] = x :=
    unique _ (List.getElem_mem h) (URL.key_injective key)
  unfold AccountCache.add
  dsimp only
  rw [if_pos]
  rw [searchURL_eq, List.getElem?_eq_getElem h, atSearch]

theorem add_present_one :
    let x1 : Account := ⟨List.replicate 20 1, ⟨KeyStoreScheme, "/keystore/key"⟩⟩
    (newAccountCache.run [.add x1]).add x1 = newAccountCache.run [.add x1] := by
  intro x1
  have added : (newAccountCache.run [.add x1]).all = [x1] :=
    @add_all_of_le newAccountCache List.Pairwise.nil x1 (by simp [newAccountCache]) (by simp [newAccountCache])
  exact add_present (run_consistent [.add x1]) (by rw [added]; exact List.mem_singleton_self _)
    fun a mem _ => by
      rw [added] at mem
      exact List.mem_singleton.mp mem

/-- Two accounts of one URL and different addresses, added in turn, and then
the first added again: the third `add` finds the other account at the search
position and inserts a second copy of an account the cache holds. -/
theorem add_repeated_inserts_duplicate :
    let x1 : Account := ⟨List.replicate 20 1, ⟨KeyStoreScheme, "/keystore/key"⟩⟩
    let x2 : Account := ⟨List.replicate 20 2, ⟨KeyStoreScheme, "/keystore/key"⟩⟩
    let ac := newAccountCache.run [.add x1, .add x2]
    x1 ∈ ac.all ∧ (ac.add x1).all = [x1, x2, x1] := by
  intro x1 x2 ac
  have added1 : (newAccountCache.add x1).all = [x1] :=
    @add_all_of_le newAccountCache List.Pairwise.nil x1 (by simp [newAccountCache])
      (by simp [newAccountCache])
  have added2 : ((newAccountCache.add x1).add x2).all = [x2, x1] := by
    have sorted : Sorted (fun a => a.URL.key) (newAccountCache.add x1).all := by
      rw [added1]
      exact List.pairwise_singleton _ _
    rw [add_all_of_le sorted (by rw [added1]; decide) (by rw [added1]; decide), added1]
  have sorted : Sorted (fun a => a.URL.key) ac.all := by
    show Sorted _ ((newAccountCache.add x1).add x2).all
    rw [added2]
    decide
  refine ⟨?_, ?_⟩
  · show x1 ∈ ((newAccountCache.add x1).add x2).all
    rw [added2]
    decide
  · have all : ac.all = [x2, x1] := added2
    rw [add_all_of_le sorted (by rw [all]; decide) (by rw [all]; decide), all]

end AccountCache

end FiscoBcos.Accounts
