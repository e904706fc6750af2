import FiscoBcos.Trie.DirtyCache
import FiscoBcos.Lib.AListUpdate
import Mathlib

/-!
# Taking an entry off the flush-list

`unlink`, the switch that `dereference` and `cleaner.Put` share, takes an
entry off the flush-list by one of three cases: the oldest entry, the newest,
or one in between. On a cache whose flush-list is `order`, each case writes
the `flushPrev` or `flushNext` of the entries next to it on the list, which
exist, so that no case dereferences a nil pointer, and the list without the
entry is the flush-list once it is deleted (`FlushListed.unlink`).
`cleaner.Put` of a cached hash other than the metaroot therefore succeeds and
keeps a flush-list (`FlushListed.cleanerPut`), and so does the replay of a
batch of such hashes (`FlushListed.replay`). Neither changes what an entry
holds: only the links of the flush-list move.
-/

namespace FiscoBcos.Trie

namespace DirtyCache

open Lib

/-- An entry's data, without its place on the flush-list. -/
def CachedNode.data (n : CachedNode) : Stored × UInt16 × UInt32 × Option (HashMap UInt16) :=
  (n.node, n.size, n.parents, n.children)

theorem CachedNode.childs_eq_of_data {n n' : CachedNode} (h : n.data = n'.data) : n.childs = n'.childs := by
  simp only [CachedNode.data, Prod.mk.injEq] at h
  simp only [CachedNode.childs, h.1, h.2.2.2]

/-! ## Reads after a write -/

section Reads

variable (d : HashMap CachedNode) (k x : List UInt8)

theorem modify_of_lookup {β : Type} {m : HashMap β} {key : List UInt8} {v : β} (look : m.lookup key = some v)
    (f : β → β) : modify m key f = .ok (m.replace key (f v)) := by
  simp [modify, look]

theorem nextOf_of_lookup {n : CachedNode} {d : HashMap CachedNode} {k : List UInt8} (look : d.lookup k = some n) :
    nextOf d k = n.flushNext := by
  simp [nextOf, look]

theorem prevOf_of_lookup {n : CachedNode} {d : HashMap CachedNode} {k : List UInt8} (look : d.lookup k = some n) :
    prevOf d k = n.flushPrev := by
  simp [prevOf, look]

theorem nextOf_replace (v : CachedNode) :
    nextOf (d.replace k v) x = if x = k ∧ k ∈ d then v.flushNext else nextOf d x := by
  unfold nextOf
  rw [lookup_replace]
  split <;> rfl

theorem prevOf_replace (v : CachedNode) :
    prevOf (d.replace k v) x = if x = k ∧ k ∈ d then v.flushPrev else prevOf d x := by
  unfold prevOf
  rw [lookup_replace]
  split <;> rfl

theorem nextOf_erase : nextOf (d.erase k) x = if x = k then zeroHash else nextOf d x := by
  unfold nextOf
  rw [lookup_erase]
  split <;> rfl

theorem prevOf_erase : prevOf (d.erase k) x = if x = k then zeroHash else prevOf d x := by
  unfold prevOf
  rw [lookup_erase]
  split <;> rfl

/-- A write to the `flushPrev` of an entry leaves every `flushNext`. -/
theorem nextOf_replace_prev {n : CachedNode} (look : d.lookup k = some n) (p : List UInt8) :
    nextOf (d.replace k { n with flushPrev := p }) x = nextOf d x := by
  rw [nextOf_replace]
  split
  · next h => rw [h.1, nextOf_of_lookup look]
  · rfl

/-- A write to the `flushNext` of an entry leaves every `flushPrev`. -/
theorem prevOf_replace_next {n : CachedNode} (look : d.lookup k = some n) (p : List UInt8) :
    prevOf (d.replace k { n with flushNext := p }) x = prevOf d x := by
  rw [prevOf_replace]
  split
  · next h => rw [h.1, prevOf_of_lookup look]
  · rfl

/-- A write to the links of an entry leaves the data of every entry. -/
theorem data_replace_links {n : CachedNode} (look : d.lookup k = some n) (p q : List UInt8) :
    ((d.replace k { n with flushPrev := p, flushNext := q }).lookup x).map CachedNode.data =
      (d.lookup x).map CachedNode.data := by
  rw [lookup_replace]
  split
  · next h => rw [h.1, look]; rfl
  · rfl

end Reads

/-! ## The three cases of `unlink` -/

section Unlink

variable {db : Database} {before after : List (List UInt8)} {h : List UInt8} {node : CachedNode}

/-- The data of the entries after `unlink` and the deletion of the entry. -/
def DataAfter (db : Database) (dirties : HashMap CachedNode) (h : List UInt8) : Prop :=
  ∀ x, ((dirties.erase h).lookup x).map CachedNode.data =
    if x = h then none else (db.dirties.lookup x).map CachedNode.data

/-- The facts of the list around the entry that the three cases share. -/
structure Around (db : Database) (before after : List (List UInt8)) (h : List UInt8) (node : CachedNode) : Prop where
  listed : FlushListed db (before ++ h :: after)
  look : db.dirties.lookup h = some node
  notBefore : h ∉ before
  notAfter : h ∉ after
  disjoint : ∀ x ∈ before, x ∉ after
  nodupBefore : before.Nodup
  nodupAfter : after.Nodup

theorem Around.of_mem {order : List (List UInt8)} (listed : FlushListed db order) (look : db.dirties.lookup h = some node)
    (mem : h ∈ order) : ∃ before after, order = before ++ h :: after ∧ Around db before after h node := by
  obtain ⟨before, after, rfl⟩ := List.append_of_mem mem
  have nodup := listed.nodup
  rw [List.nodup_append, List.nodup_cons] at nodup
  obtain ⟨nodupBefore, ⟨notAfter, nodupAfter⟩, disjoint⟩ := nodup
  refine ⟨before, after, rfl, listed, look, fun m => ?_, notAfter, fun x hx hy => ?_, nodupBefore, nodupAfter⟩
  · exact disjoint h m h (List.mem_cons_self) rfl
  · exact disjoint x hx x (List.mem_cons_of_mem h hy) rfl

theorem Around.mem_dirties (around : Around db before after h node) {x : List UInt8}
    (mem : x ∈ before ++ h :: after) : x ∈ db.dirties :=
  ((around.listed.entries x).mp mem).1

theorem Around.ne_zeroHash (around : Around db before after h node) : h ≠ zeroHash :=
  ((around.listed.entries h).mp (by simp)).2

/-- Every entry other than `h` keeps its key, in or out of the cache. -/
theorem Around.entries_erase (around : Around db before after h node) {dirties : HashMap CachedNode}
    (keys : ∀ x, x ∈ dirties ↔ x ∈ db.dirties) (x : List UInt8) :
    x ∈ before ++ after ↔ x ∈ dirties.erase h ∧ x ≠ zeroHash := by
  rw [AList.mem_erase, keys]
  constructor
  · intro mem
    have mem' : x ∈ before ++ h :: after := by
      rcases List.mem_append.mp mem with m | m
      · exact List.mem_append_left _ m
      · exact List.mem_append_right _ (List.mem_cons_of_mem h m)
    refine ⟨⟨fun e => ?_, around.mem_dirties mem'⟩, ((around.listed.entries x).mp mem').2⟩
    subst e
    rcases List.mem_append.mp mem with m | m
    · exact around.notBefore m
    · exact around.notAfter m
  · rintro ⟨⟨ne, cached⟩, nonzero⟩
    have := (around.listed.entries x).mpr ⟨cached, nonzero⟩
    rcases List.mem_append.mp this with m | m
    · exact List.mem_append_left _ m
    · rcases List.mem_cons.mp m with e | m
      · exact absurd e ne
      · exact List.mem_append_right _ m

theorem Around.next (around : Around db before after h node) : node.flushNext = after.headD zeroHash := by
  rw [← nextOf_of_lookup around.look]
  exact around.listed.linked.next_eq

theorem Around.prev (around : Around db before after h node) (ne : before ≠ []) :
    node.flushPrev = before.getLast ne := by
  rw [← prevOf_of_lookup around.look]
  exact around.listed.linked.prev_eq ne

/-- The oldest entry: its successor, or the metaroot, loses its `flushPrev`. -/
theorem unlink_oldest (around : Around db [] after h node) :
    ∃ dirties, db.unlink h node = .ok { db with dirties, oldest := node.flushNext } ∧
      FlushListed { db with dirties := dirties.erase h, oldest := node.flushNext } after ∧
      DataAfter db dirties h := by
  have listed := around.listed
  have oldest : h = db.oldest := by rw [listed.oldest]; rfl
  obtain ⟨m, lookNext⟩ : ∃ m, db.dirties.lookup node.flushNext = some m := by
    rw [← Option.isSome_iff_exists, AList.lookup_isSome, around.next]
    cases after with
    | nil => exact listed.metaroot
    | cons a rest => exact around.mem_dirties (by simp)
  refine ⟨db.dirties.replace node.flushNext { m with flushPrev := zeroHash }, ?_, ?_, ?_⟩
  · rw [Database.unlink, if_pos oldest, modify_of_lookup lookNext]
    rfl
  · have keys (x : List UInt8) : x ∈ db.dirties.replace node.flushNext { m with flushPrev := zeroHash } ↔
        x ∈ db.dirties := AList.mem_replace
    refine ⟨?_, around.nodupAfter, around.entries_erase keys, ?_, ?_, ?_⟩
    · exact AList.mem_erase.mpr ⟨Ne.symm around.ne_zeroHash, (keys _).mpr listed.metaroot⟩
    · refine listed.linked.tail.congr (fun x hx => ?_) (fun x hx => ?_)
      · have ne : x ≠ h := fun e => around.notAfter (e ▸ hx)
        rw [nextOf_erase, if_neg ne, nextOf_replace_prev _ _ _ lookNext]
      · have ne : x ≠ h := fun e => around.notAfter (e ▸ List.mem_of_mem_tail hx)
        rw [prevOf_erase, if_neg ne, prevOf_replace, if_neg]
        -- the successor of `h` is the head of `after`, not in its tail
        rintro ⟨rfl, -⟩
        rw [around.next] at hx
        cases after with
        | nil => simp at hx
        | cons a rest =>
          exact (List.nodup_cons.mp around.nodupAfter).1 hx
    · rw [around.next]
    · intro last hlast
      rw [listed.newest last]
      cases after with
      | nil => simp at hlast
      | cons a rest => simpa [List.getLast?_cons_cons] using hlast
  · intro x
    rw [lookup_erase]
    split
    · rfl
    · exact data_replace_links _ _ _ lookNext _ _

/-- The newest entry: its predecessor loses its `flushNext`. -/
theorem unlink_newest (around : Around db before [] h node) (ne : before ≠ []) :
    ∃ dirties, db.unlink h node = .ok { db with dirties, newest := node.flushPrev } ∧
      FlushListed { db with dirties := dirties.erase h, newest := node.flushPrev } (before ++ []) ∧
      DataAfter db dirties h := by
  have listed := around.listed
  have notOldest : h ≠ db.oldest := by
    rw [listed.oldest]
    obtain ⟨a, rest, rfl⟩ := List.exists_cons_of_ne_nil ne
    rintro rfl
    exact around.notBefore List.mem_cons_self
  have newest : h = db.newest := (listed.newest h (by simp)).symm
  have last := around.prev ne
  obtain ⟨m, lookPrev⟩ : ∃ m, db.dirties.lookup node.flushPrev = some m := by
    rw [← Option.isSome_iff_exists, AList.lookup_isSome, last]
    exact around.mem_dirties (List.mem_append_left _ (List.getLast_mem ne))
  have notH {x : List UInt8} (mem : x ∈ before) : x ≠ h := fun e => around.notBefore (e ▸ mem)
  refine ⟨db.dirties.replace node.flushPrev { m with flushNext := zeroHash }, ?_, ?_, ?_⟩
  · rw [Database.unlink, if_neg notOldest, if_pos newest, modify_of_lookup lookPrev]
    rfl
  · have keys (x : List UInt8) : x ∈ db.dirties.replace node.flushPrev { m with flushNext := zeroHash } ↔
        x ∈ db.dirties := AList.mem_replace
    rw [List.append_nil]
    refine ⟨?_, around.nodupBefore, fun x => by simpa using around.entries_erase keys x, ?_, ?_, ?_⟩
    · exact AList.mem_erase.mpr ⟨Ne.symm around.ne_zeroHash, (keys _).mpr listed.metaroot⟩
    · -- end the list at the predecessor, then read the unchanged `flushPrev`s
      have ends : Linked zeroHash (nextOf ((db.dirties.replace node.flushPrev
          { m with flushNext := zeroHash }).erase h)) (prevOf db.dirties) before :=
        listed.linked.dropLast ne ?_ ?_
      · refine ends.congr (fun _ _ => rfl) fun x hx => ?_
        rw [prevOf_erase, if_neg (notH (List.mem_of_mem_tail hx)), prevOf_replace_next _ _ _ lookPrev]
      · rw [nextOf_erase, if_neg (notH (List.getLast_mem ne)), nextOf_replace, ← last,
          if_pos ⟨rfl, AList.lookup_isSome.mp (by rw [lookPrev]; rfl)⟩]
      · intro x hx
        have notLast : x ≠ node.flushPrev := last ▸ ne_getLast_of_mem_dropLast around.nodupBefore ne hx
        rw [nextOf_erase, if_neg (notH (List.dropLast_subset _ hx)), nextOf_replace, if_neg (by tauto)]
    · rw [listed.oldest]
      obtain ⟨a, rest, rfl⟩ := List.exists_cons_of_ne_nil ne
      rfl
    · intro x hx
      rw [List.getLast?_eq_some_getLast ne, Option.mem_some_iff] at hx
      rw [last, hx]
  · intro x
    rw [lookup_erase]
    split
    · rfl
    · exact data_replace_links _ _ _ lookPrev _ _

/-- An entry in between: its two neighbours are linked to each other. -/
theorem unlink_inner (around : Around db before after h node) (neBefore : before ≠ []) (neAfter : after ≠ []) :
    ∃ dirties, db.unlink h node = .ok { db with dirties } ∧
      FlushListed { db with dirties := dirties.erase h } (before ++ after) ∧ DataAfter db dirties h := by
  have listed := around.listed
  have notOldest : h ≠ db.oldest := by
    rw [listed.oldest]
    obtain ⟨a, rest, rfl⟩ := List.exists_cons_of_ne_nil neBefore
    rintro rfl
    exact around.notBefore List.mem_cons_self
  have notNewest : h ≠ db.newest := by
    have newest := listed.newest (after.getLast neAfter) (by
      rw [List.getLast?_append_of_ne_nil _ (List.cons_ne_nil h after), List.getLast?_cons,
        List.getLast?_eq_some_getLast neAfter]
      rfl)
    rw [newest]
    rintro rfl
    exact around.notAfter (List.getLast_mem neAfter)
  have prev := around.prev neBefore
  have next : node.flushNext = after.head neAfter := by
    rw [around.next]
    obtain ⟨a, rest, rfl⟩ := List.exists_cons_of_ne_nil neAfter
    rfl
  have apart : node.flushNext ≠ node.flushPrev := by
    rw [next, prev]
    exact fun e => around.disjoint _ (List.getLast_mem neBefore) (e ▸ List.head_mem neAfter)
  obtain ⟨m, lookPrev⟩ : ∃ m, db.dirties.lookup node.flushPrev = some m := by
    rw [← Option.isSome_iff_exists, AList.lookup_isSome, prev]
    exact around.mem_dirties (List.mem_append_left _ (List.getLast_mem neBefore))
  obtain ⟨m', lookNext⟩ : ∃ m', db.dirties.lookup node.flushNext = some m' := by
    rw [← Option.isSome_iff_exists, AList.lookup_isSome, next]
    exact around.mem_dirties (List.mem_append_right _ (List.mem_cons_of_mem h (List.head_mem neAfter)))
  -- the first write does not touch the successor's entry
  have lookNext' : (db.dirties.replace node.flushPrev { m with flushNext := node.flushNext }).lookup
      node.flushNext = some m' := by
    rw [lookup_replace, if_neg (fun e => apart e.1), lookNext]
  have notH {x : List UInt8} (mem : x ∈ before ∨ x ∈ after) : x ≠ h := by
    rintro rfl
    rcases mem with m | m
    · exact around.notBefore m
    · exact around.notAfter m
  let first := db.dirties.replace node.flushPrev { m with flushNext := node.flushNext }
  refine ⟨first.replace node.flushNext { m' with flushPrev := node.flushPrev }, ?_, ?_, ?_⟩
  · rw [Database.unlink, if_neg notOldest, if_neg notNewest]
    simp only [bind, Except.bind, modify_of_lookup lookPrev, modify_of_lookup lookNext']
    rfl
  · have keys (x : List UInt8) : x ∈ first.replace node.flushNext { m' with flushPrev := node.flushPrev } ↔
        x ∈ db.dirties := AList.mem_replace.trans AList.mem_replace
    have memFirst : node.flushNext ∈ first := AList.lookup_isSome.mp (by rw [lookNext']; rfl)
    have memPrev : node.flushPrev ∈ db.dirties := AList.lookup_isSome.mp (by rw [lookPrev]; rfl)
    refine ⟨?_, ?_, around.entries_erase keys, ?_, ?_, ?_⟩
    · exact AList.mem_erase.mpr ⟨Ne.symm around.ne_zeroHash, (keys _).mpr listed.metaroot⟩
    · exact List.nodup_append.mpr ⟨around.nodupBefore, around.nodupAfter,
        fun x hx y hy e => around.disjoint x hx (e ▸ hy)⟩
    · refine listed.linked.unlink neBefore neAfter ?_ ?_ (fun x hx => ?_) (fun x hx => ?_)
      · rw [nextOf_erase, if_neg (notH (.inl (List.getLast_mem neBefore))), ← prev,
          nextOf_replace_prev _ _ _ lookNext', nextOf_replace, if_pos ⟨rfl, memPrev⟩, next]
      · rw [prevOf_erase, if_neg (notH (.inr (List.head_mem neAfter))), ← next, prevOf_replace,
          if_pos ⟨rfl, memFirst⟩, prev]
      · have notPrev : x ≠ node.flushPrev := by
          rw [prev]
          rcases List.mem_append.mp hx with m | m
          · exact ne_getLast_of_mem_dropLast around.nodupBefore neBefore m
          · exact fun e => around.disjoint _ (List.getLast_mem neBefore) (e ▸ m)
        have mem : x ∈ before ∨ x ∈ after := (List.mem_append.mp hx).imp (List.dropLast_subset _ ·) id
        rw [nextOf_erase, if_neg (notH mem), nextOf_replace_prev _ _ _ lookNext', nextOf_replace,
          if_neg (by tauto)]
      · have notNext : x ≠ node.flushNext := by
          rw [next]
          rcases List.mem_append.mp hx with m | m
          · exact fun e => around.disjoint _ (List.mem_of_mem_tail m) (e ▸ List.head_mem neAfter)
          · exact ne_head_of_mem_tail around.nodupAfter neAfter m
        have mem : x ∈ before ∨ x ∈ after :=
          (List.mem_append.mp hx).imp List.mem_of_mem_tail List.mem_of_mem_tail
        rw [prevOf_erase, if_neg (notH mem), prevOf_replace, if_neg (by tauto),
          prevOf_replace_next _ _ _ lookPrev]
    · rw [listed.oldest]
      obtain ⟨a, rest, rfl⟩ := List.exists_cons_of_ne_nil neBefore
      rfl
    · intro x hx
      rw [List.getLast?_append_of_ne_nil _ neAfter] at hx
      refine listed.newest x ?_
      rw [List.getLast?_append_of_ne_nil _ (List.cons_ne_nil h after), List.getLast?_cons]
      rw [List.getLast?_eq_some_getLast neAfter, Option.mem_some_iff] at hx
      rw [List.getLast?_eq_some_getLast neAfter, hx]
      rfl
  · intro x
    rw [lookup_erase]
    split
    · rfl
    · rw [data_replace_links _ _ _ lookNext' _ _, data_replace_links _ _ _ lookPrev _ _]

/-- `unlink` of an entry on the flush-list: no nil pointer, and once the
entry is deleted the list without it is the flush-list. -/
theorem FlushListed.unlink {order : List (List UInt8)} (listed : FlushListed db order)
    (look : db.dirties.lookup h = some node) (mem : h ∈ order) :
    ∃ dirties oldest newest, db.unlink h node = .ok { db with dirties, oldest, newest } ∧
      FlushListed { db with dirties := dirties.erase h, oldest, newest } (order.erase h) ∧
      DataAfter db dirties h := by
  obtain ⟨before, after, rfl, around⟩ := Around.of_mem listed look mem
  rw [List.erase_append_right _ around.notBefore, List.erase_cons_head]
  by_cases neBefore : before = []
  · subst neBefore
    obtain ⟨dirties, run, listed', data⟩ := unlink_oldest around
    exact ⟨dirties, node.flushNext, db.newest, run, listed', data⟩
  · by_cases neAfter : after = []
    · subst neAfter
      obtain ⟨dirties, run, listed', data⟩ := unlink_newest around neBefore
      exact ⟨dirties, db.oldest, node.flushPrev, run, listed', data⟩
    · obtain ⟨dirties, run, listed', data⟩ := unlink_inner around neBefore neAfter
      exact ⟨dirties, db.oldest, db.newest, run, listed', data⟩

end Unlink

/-! ## `cleaner.Put` and the replay of a batch -/

/-- The flush-list depends on the entries and the two ends only. -/
theorem FlushListed.of_eq {db db' : Database} {order : List (List UInt8)} (listed : FlushListed db order)
    (dirties : db'.dirties = db.dirties) (oldest : db'.oldest = db.oldest) (newest : db'.newest = db.newest) :
    FlushListed db' order := by
  obtain ⟨metaroot, nodup, entries, linked, isOldest, isNewest⟩ := listed
  refine ⟨?_, nodup, ?_, ?_, ?_, ?_⟩ <;> simp only [dirties, oldest, newest] <;> assumption

/-- `cleaner.Put` of a hash other than the metaroot's: the entry, if it is
cached, leaves the flush-list and the cache, and no other entry changes its
data. -/
theorem FlushListed.cleanerPut {db : Database} {order : List (List UInt8)} (listed : FlushListed db order)
    {h : List UInt8} (len : h.length = hashLen) (nonzero : h ≠ zeroHash) :
    ∃ db', db.cleanerPut h = .ok db' ∧ FlushListed db' (order.erase h) ∧ db'.diskdb = db.diskdb ∧
      ∀ x, (db'.dirties.lookup x).map CachedNode.data =
        if x = h then none else (db.dirties.lookup x).map CachedNode.data := by
  unfold Database.cleanerPut
  rw [bytesToHash_of_length len]
  dsimp only
  cases look : db.dirties.lookup h with
  | none =>
    -- a hash that is not cached: nothing changes
    have notMem : h ∉ order := fun mem => by
      have cached := ((listed.entries h).mp mem).1
      rw [← AList.lookup_isSome, look] at cached
      cases cached
    refine ⟨db, rfl, by rwa [List.erase_of_not_mem notMem], rfl, fun x => ?_⟩
    split
    · next e => rw [e, look]; rfl
    · rfl
  | some node =>
    have mem : h ∈ order := (listed.entries h).mpr ⟨AList.lookup_isSome.mp (by rw [look]; rfl), nonzero⟩
    obtain ⟨dirties, oldest, newest, run, listed', data⟩ := listed.unlink look mem
    refine ⟨{ db with
        dirties := dirties.erase h, oldest := oldest, newest := newest,
        dirtiesSize := db.dirtiesSize - (HashLength + node.size.toNat) - node.childrenMapSize },
      by dsimp only; rw [run]; rfl, listed'.of_eq rfl rfl rfl, rfl, data⟩

/-- The replay of puts of hashes other than the metaroot's: each written
entry leaves the cache, the others keep their data, and a flush-list
remains. -/
theorem FlushListed.replay {db : Database} {order : List (List UInt8)} (listed : FlushListed db order)
    (writes : List (List UInt8 × List UInt8)) (keys : ∀ w ∈ writes, w.1.length = hashLen ∧ w.1 ≠ zeroHash) :
    ∃ db' order', writes.foldlM (fun db w => db.cleanerPut w.1) db = .ok db' ∧ FlushListed db' order' ∧
      db'.diskdb = db.diskdb ∧
      ∀ x, (db'.dirties.lookup x).map CachedNode.data =
        if x ∈ writes.map Prod.fst then none else (db.dirties.lookup x).map CachedNode.data := by
  induction writes generalizing db order with
  | nil => exact ⟨db, order, rfl, listed, rfl, fun x => by simp⟩
  | cons w rest ih =>
    obtain ⟨len, nonzero⟩ := keys w List.mem_cons_self
    obtain ⟨db₁, put, listed₁, disk₁, data₁⟩ := listed.cleanerPut len nonzero
    obtain ⟨db', order', run, listed', disk', data'⟩ :=
      ih listed₁ fun w' mem => keys w' (List.mem_cons_of_mem w mem)
    refine ⟨db', order', ?_, listed', disk'.trans disk₁, fun x => ?_⟩
    · rw [List.foldlM_cons, put]
      exact run
    · rw [data', data₁]
      by_cases e : x = w.1
      · simp [e]
      · simp only [List.map_cons, List.mem_cons, e, false_or, if_false]

end DirtyCache

end FiscoBcos.Trie
