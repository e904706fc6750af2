import FiscoBcos.Accounts.Url
import FiscoBcos.Lib.SortedSearch
import Mathlib

/-!
# The account manager's wallet list

`accounts/manager.go`: the manager keeps the wallets of all its backends in
one list sorted by URL. `merge` inserts each wallet at the position that
`sort.Search` finds for its URL, `drop` removes the wallet at that position,
and `Manager.update` applies one of the two for each wallet event.

`merge` keeps the list sorted and holds exactly the wallets it was given
(`merge_sorted`, `merge_perm`). `drop` keeps the list sorted, and removes a
wallet of the dropped wallet's URL when one is present (`dropOne_of_mem`).
When none is present it removes the first wallet of a larger URL, if there is
one (`dropOne_of_absent`), and only when every URL is smaller does it leave
the list as it is (`dropOne_of_all_lt`). Every run of the event loop from
`NewManager` keeps the list sorted (`run_sorted`).

Wallets are values of any type with their `URL()`; nothing else of the
`Wallet` interface is read here. Left out: the backends, subscriptions and
feed of the manager, which carry the events but do not change the list.
-/

namespace FiscoBcos.Accounts

open Search

section

variable {Wallet : Type*} (url : Wallet → URL)

/-- The `sort.Search` of `merge` and `drop`: the first wallet whose URL is at
least `wallet.URL()`. `sort.Search` evaluates the predicate only below
`len(slice)`, where `slice[i]?` is a wallet. -/
def searchURL (slice : List Wallet) (wallet : Wallet) : Nat :=
  search slice.length fun i => slice[i]?.all fun w => decide ((url w).Cmp (url wallet) ≥ 0)

/-- One round of `merge`'s loop. -/
def mergeOne (slice : List Wallet) (wallet : Wallet) : List Wallet :=
  let n := searchURL url slice wallet
  if n = slice.length then slice ++ [wallet]
  else slice.take n ++ wallet :: slice.drop n

/-- `merge`. -/
def merge (slice wallets : List Wallet) : List Wallet := wallets.foldl (mergeOne url) slice

/-- One round of `drop`'s loop. The wallet at the search position is removed
whatever its URL. -/
def dropOne (slice : List Wallet) (wallet : Wallet) : List Wallet :=
  let n := searchURL url slice wallet
  if n = slice.length then slice
  else slice.take n ++ slice.drop (n + 1)

/-- `drop`. -/
def drop (slice wallets : List Wallet) : List Wallet := wallets.foldl (dropOne url) slice

/-- `accounts.WalletEventType`. -/
inductive WalletEventType where
  | WalletArrived
  | WalletOpened
  | WalletDropped
deriving DecidableEq, Repr

/-- `accounts.WalletEvent`. -/
structure WalletEvent (Wallet : Type*) where
  Wallet : Wallet
  Kind : WalletEventType

/-- The part of `accounts.Manager` that the wallet events change. -/
structure Manager (Wallet : Type*) where
  wallets : List Wallet

/-- `NewManager`: the wallets of each backend, merged in turn. -/
def NewManager (backends : List (List Wallet)) : Manager Wallet :=
  ⟨backends.foldl (merge url) []⟩

/-- One event of `Manager.update`'s loop. -/
def Manager.update (am : Manager Wallet) (event : WalletEvent Wallet) : Manager Wallet :=
  match event.Kind with
  | .WalletArrived => ⟨merge url am.wallets [event.Wallet]⟩
  | .WalletDropped => ⟨drop url am.wallets [event.Wallet]⟩
  | .WalletOpened => am

/-- The list is sorted by URL, as `merge` assumes of its input. -/
def SortedByURL (slice : List Wallet) : Prop := Sorted (fun w => (url w).key) slice

variable {url}

/-- The search of `merge` and `drop` is the library's search for the first
key at least the wallet's. -/
theorem searchURL_eq (slice : List Wallet) (wallet : Wallet) :
    searchURL url slice wallet = lowerBound (fun w => (url w).key) slice (url wallet).key := by
  unfold searchURL lowerBound keyAtLeast
  congr
  funext i
  congr
  funext w
  simp [URL.Cmp_nonneg]

/-- Both branches of `merge` insert at the search position. -/
theorem mergeOne_eq (slice : List Wallet) (wallet : Wallet) :
    mergeOne url slice wallet =
      slice.take (searchURL url slice wallet) ++ wallet :: slice.drop (searchURL url slice wallet) := by
  unfold mergeOne
  dsimp only
  split_ifs with atEnd
  · rw [atEnd, List.take_length, List.drop_length]
  · rfl

theorem SortedByURL.mergeOne {slice : List Wallet} (s : SortedByURL url slice) (wallet : Wallet) :
    SortedByURL url (mergeOne url slice wallet) := by
  rw [mergeOne_eq, searchURL_eq]
  exact (lowerBound_splits s).insert s

theorem perm_mergeOne (slice : List Wallet) (wallet : Wallet) :
    (mergeOne url slice wallet).Perm (slice ++ [wallet]) := by
  rw [mergeOne_eq]
  exact perm_take_cons_drop slice _ wallet

theorem merge_sorted {slice : List Wallet} (s : SortedByURL url slice) (wallets : List Wallet) :
    SortedByURL url (merge url slice wallets) := by
  induction wallets generalizing slice with
  | nil => exact s
  | cons wallet rest ih => exact ih (s.mergeOne wallet)

theorem merge_perm (slice wallets : List Wallet) :
    (merge url slice wallets).Perm (slice ++ wallets) := by
  induction wallets generalizing slice with
  | nil => simp [merge]
  | cons wallet rest ih =>
    have step := (ih (mergeOne url slice wallet)).trans ((perm_mergeOne slice wallet).append_right rest)
    simpa [merge] using step

theorem SortedByURL.dropOne {slice : List Wallet} (s : SortedByURL url slice) (wallet : Wallet) :
    SortedByURL url (dropOne url slice wallet) := by
  unfold Accounts.dropOne
  dsimp only
  split_ifs
  · exact s
  · exact s.take_append_drop_succ _

theorem drop_sorted {slice : List Wallet} (s : SortedByURL url slice) (wallets : List Wallet) :
    SortedByURL url (drop url slice wallets) := by
  induction wallets generalizing slice with
  | nil => exact s
  | cons wallet rest ih => exact ih (s.dropOne wallet)

theorem dropOne_of_lt {slice : List Wallet} {wallet : Wallet}
    (lt : searchURL url slice wallet < slice.length) :
    dropOne url slice wallet =
      slice.take (searchURL url slice wallet) ++ slice.drop (searchURL url slice wallet + 1) := by
  unfold Accounts.dropOne
  dsimp only
  rw [if_neg (Nat.ne_of_lt lt)]

section Sorted

variable {slice : List Wallet} (s : SortedByURL url slice) {wallet : Wallet}
include s

/-- When a wallet of the same URL is present, `drop` removes a wallet of that
URL: the one at the search position. -/
theorem dropOne_of_mem {v : Wallet} (mem : v ∈ slice) (same : url v = url wallet) :
    ∃ h : searchURL url slice wallet < slice.length,
      url slice[searchURL url slice wallet] = url wallet ∧
      dropOne url slice wallet =
        slice.take (searchURL url slice wallet) ++ slice.drop (searchURL url slice wallet + 1) := by
  have sp := lowerBound_splits (k := (url wallet).key) s
  obtain ⟨h, key⟩ := sp.key_eq s mem (congrArg URL.key same)
  rw [← searchURL_eq] at h
  refine ⟨h, URL.key_injective ?_, dropOne_of_lt h⟩
  simpa only [searchURL_eq] using key

/-- When no wallet has the URL but one has a larger URL, `drop` removes the
wallet at the search position, whose URL is another. -/
theorem dropOne_of_absent (absent : ∀ v ∈ slice, url v ≠ url wallet)
    (larger : ∃ v ∈ slice, (url wallet).key < (url v).key) :
    ∃ h : searchURL url slice wallet < slice.length,
      url slice[searchURL url slice wallet] ≠ url wallet ∧
      dropOne url slice wallet =
        slice.take (searchURL url slice wallet) ++ slice.drop (searchURL url slice wallet + 1) := by
  have sp := lowerBound_splits (k := (url wallet).key) s
  have absentKey : ∀ v ∈ slice, (url v).key ≠ (url wallet).key :=
    fun v mem eq => absent v mem (URL.key_injective eq)
  obtain ⟨h, -⟩ := sp.key_gt absentKey larger
  rw [← searchURL_eq] at h
  exact ⟨h, absent _ (List.getElem_mem h), dropOne_of_lt h⟩

/-- When every URL is below the wallet's, `drop` leaves the list as it is. -/
theorem dropOne_of_all_lt (lt : ∀ v ∈ slice, (url v).key < (url wallet).key) :
    dropOne url slice wallet = slice := by
  have atEnd : searchURL url slice wallet = slice.length := by
    rw [searchURL_eq]
    exact (lowerBound_splits s).eq_length lt
  unfold Accounts.dropOne
  dsimp only
  rw [if_pos atEnd]

end Sorted

theorem dropOne_of_mem_single :
    let slice : List URL := [⟨"keystore", "/keys/b"⟩]
    ∃ h : searchURL id slice ⟨"keystore", "/keys/b"⟩ < slice.length,
      id slice[searchURL id slice ⟨"keystore", "/keys/b"⟩] = id ⟨"keystore", "/keys/b"⟩ ∧
        dropOne id slice ⟨"keystore", "/keys/b"⟩ =
          slice.take (searchURL id slice ⟨"keystore", "/keys/b"⟩) ++
            slice.drop (searchURL id slice ⟨"keystore", "/keys/b"⟩ + 1) :=
  dropOne_of_mem (List.pairwise_singleton _ _) (List.mem_singleton_self _) rfl

theorem dropOne_of_all_lt_single :
    dropOne id [(⟨"keystore", "/keys/a"⟩ : URL)] ⟨"keystore", "/keys/b"⟩ = [⟨"keystore", "/keys/a"⟩] :=
  dropOne_of_all_lt (List.pairwise_singleton _ _) (by decide)

/-- Dropping a wallet that the list does not hold removes the wallet of the
next larger URL. -/
theorem drop_removes_wallet_of_other_url :
    drop id [(⟨"keystore", "/keys/b"⟩ : URL)] [⟨"keystore", "/keys/a"⟩] = [] := by
  have sorted : SortedByURL id [(⟨"keystore", "/keys/b"⟩ : URL)] := List.pairwise_singleton _ _
  have absent : ∀ v ∈ [(⟨"keystore", "/keys/b"⟩ : URL)], id v ≠ id ⟨"keystore", "/keys/a"⟩ := by
    decide
  have larger : ∃ v ∈ [(⟨"keystore", "/keys/b"⟩ : URL)],
      (id (⟨"keystore", "/keys/a"⟩ : URL)).key < (id v).key :=
    ⟨_, List.mem_singleton_self _, by decide⟩
  obtain ⟨h, -, removed⟩ := dropOne_of_absent sorted absent larger
  have first : searchURL id [(⟨"keystore", "/keys/b"⟩ : URL)] ⟨"keystore", "/keys/a"⟩ = 0 := by
    simpa using h
  show dropOne id _ _ = []
  rw [removed, first]
  rfl

theorem Manager.update_sorted {am : Manager Wallet} (s : SortedByURL url am.wallets)
    (event : WalletEvent Wallet) : SortedByURL url (am.update url event).wallets := by
  unfold Manager.update
  cases event.Kind with
  | WalletArrived => exact merge_sorted s _
  | WalletDropped => exact drop_sorted s _
  | WalletOpened => exact s

theorem foldl_merge_sorted {slice : List Wallet} (s : SortedByURL url slice)
    (backends : List (List Wallet)) : SortedByURL url (backends.foldl (merge url) slice) := by
  induction backends generalizing slice with
  | nil => exact s
  | cons wallets rest ih => exact ih (merge_sorted s wallets)

theorem foldl_update_sorted {am : Manager Wallet} (s : SortedByURL url am.wallets)
    (events : List (WalletEvent Wallet)) :
    SortedByURL url (events.foldl (Manager.update url) am).wallets := by
  induction events generalizing am with
  | nil => exact s
  | cons event rest ih => exact ih (am.update_sorted s event)

/-- Every run of the event loop from `NewManager` keeps the wallet list
sorted by URL. -/
theorem run_sorted (backends : List (List Wallet)) (events : List (WalletEvent Wallet)) :
    SortedByURL url (events.foldl (Manager.update url) (NewManager url backends)).wallets :=
  foldl_update_sorted (foldl_merge_sorted List.Pairwise.nil backends) events

end

end FiscoBcos.Accounts
