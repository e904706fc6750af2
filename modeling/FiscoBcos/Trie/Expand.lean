import FiscoBcos.Trie.Semantics
import Mathlib

/-!
# Tries over a database

The nodes of a trie in memory may hold hash nodes, the parts of the trie not
loaded yet: a lookup, an insertion or a deletion that reaches one loads its
node from the database (`resolveHash`) and goes on there. `Expands db fuel n e`
says that over the database `db` the node `n` stands for the tree `e` held
wholly in memory: each hash node below `n` loads a short or a full node (what
`decodeNode` and a collapsed dirty node give), which stands for the tree in
its place, and no path from `n` loads more than `fuel` of them. A tree in
memory stands for itself (`Expands.of_wf`).

A trie over such a database behaves as its expanded tree. `tryGet` reads
what a lookup in the tree reads (`tryGet_expands`), so the value `lookup`
gives on a tree of the shape (`TryGet_expands`); `insert` and `delete`
succeed where they succeed in the tree, with the same answer, and return a
node that stands for the tree they return there (`insert_expands`,
`delete_expands`). So what is proved of tries in memory carries over to tries
loaded from a database.
-/

namespace FiscoBcos.Trie

namespace Node

variable {K : Type}

/-- A node a hash can load: a short or a full node. -/
def isLoaded : Node K → Bool
  | .short _ _ => true
  | .full _ => true
  | _ => false

/-- A short node. -/
def isShort : Node K → Bool
  | .short _ _ => true
  | _ => false

theorem isHash_of_isLoaded {n : Node K} (h : n.isLoaded = true) : n.isHash = false := by
  cases n <;> simp_all [isLoaded, isHash]

end Node

open Node

/-- Over `db`, the node `n` stands for the tree `e` in memory, with at most
`fuel` hash nodes loaded on any path. -/
inductive Expands (db : Database) : Nat → HexNode → HexNode → Prop
  | nil {fuel : Nat} : Expands db fuel .nil .nil
  | value {fuel : Nat} (v : List UInt8) : Expands db fuel (.value v) (.value v)
  | short {fuel : Nat} (k : List Nibble) {v e : HexNode} :
      Expands db fuel v e → Expands db fuel (.short k v) (.short k e)
  | full {fuel : Nat} {cs es : Fin 17 → HexNode} :
      (∀ i, Expands db fuel (cs i) (es i)) → Expands db fuel (.full cs) (.full es)
  | hash {fuel : Nat} {h : List UInt8} {m e : HexNode} :
      db.node (bytesToHash h) = .ok (some m) → m.isLoaded = true → Expands db fuel m e →
      Expands db (fuel + 1) (.hash h) e

namespace Expands

variable {db : Database}

/-- A larger budget of loads does as well. -/
theorem mono {fuel : Nat} {n e : HexNode} (h : Expands db fuel n e) : ∀ {fuel'}, fuel ≤ fuel' → Expands db fuel' n e := by
  induction h with
  | nil => intro _ _; exact .nil
  | value v => intro _ _; exact .value v
  | short k _ ih => intro _ le; exact .short k (ih le)
  | full _ ih => intro _ le; exact .full fun i => ih i le
  | hash node loaded _ ih =>
    intro fuel' le
    obtain ⟨f, rfl⟩ : ∃ f, fuel' = f + 1 := ⟨fuel' - 1, by omega⟩
    exact .hash node loaded (ih (by omega))

/-- The tree is held in memory: it has no hash node. -/
theorem isHash_eq {fuel : Nat} {n e : HexNode} (h : Expands db fuel n e) : e.isHash = false := by
  induction h with
  | hash _ _ _ ih => exact ih
  | _ => rfl

/-- A node that is not a hash node stands for a tree of its own kind; a hash
node for a short or a full one. -/
theorem isLoaded_eq {fuel : Nat} {n e : HexNode} (h : Expands db fuel n e) :
    n.isHash = false → e.isLoaded = n.isLoaded := by
  induction h with
  | hash _ loaded expands ih => intro ne; simp [isHash] at ne
  | _ => intro _; rfl

theorem isLoaded_of_hash {fuel : Nat} {h : List UInt8} {e : HexNode} (expands : Expands db fuel (.hash h) e) :
    e.isLoaded = true := by
  cases expands with
  | hash _ loaded below => rw [below.isLoaded_eq (isHash_of_isLoaded loaded)]; exact loaded

/-- Nil stands for nil only. -/
theorem isNil_eq {fuel : Nat} {n e : HexNode} (h : Expands db fuel n e) : e.isNil = n.isNil := by
  cases n with
  | hash _ =>
    have := h.isLoaded_of_hash
    cases e <;> simp_all [isLoaded, isNil]
  | _ => cases h; rfl

/-- A tree in memory of the shape stands for itself. -/
theorem of_wf {fuel : Nat} : ∀ {e : HexNode}, e.Wf → Expands db fuel e e
  | .nil, _ => .nil
  | .short k v, wf => by
    rcases wf with ⟨_, w, rfl⟩ | ⟨_, _, _, wfv⟩
    · exact .short k (.value w)
    · exact .short k (of_wf wfv)
  | .full cs, wf => by
    refine .full fun i => ?_
    by_cases h16 : i = 16
    · subst h16
      rcases wf.1 with e | ⟨w, e⟩ <;> rw [e]
      · exact .nil
      · exact .value w
    · exact of_wf (wf.2.1 i h16)

theorem insertNil {fuel : Nat} {n e : HexNode} (h : Expands db fuel n e) (q : List Nibble) :
    Expands db fuel (Trie.insertNil q n) (Trie.insertNil q e) := by
  unfold Trie.insertNil
  split_ifs
  · exact h
  · exact .short q h

theorem branch {fuel : Nat} {n e : HexNode} (h : Expands db fuel n e) (i : Nibble) (krest : List Nibble)
    (j : Nibble) (rest : List Nibble) (w : List UInt8) :
    Expands db fuel (Trie.branch i krest n j rest (.value w)) (Trie.branch i krest e j rest (.value w)) := by
  refine .full fun x => ?_
  simp only [Function.update_apply]
  split_ifs
  · exact Expands.insertNil (.value w) rest
  · exact h.insertNil krest
  · exact .nil

theorem update {fuel : Nat} {cs es : Fin 17 → HexNode} (each : ∀ i, Expands db fuel (cs i) (es i)) (k : Fin 17)
    {nn ee : HexNode} (h : Expands db fuel nn ee) :
    ∀ i, Expands db fuel (Function.update cs k nn i) (Function.update es k ee i) := by
  intro i
  by_cases e : i = k
  · subst e; simpa using h
  · simpa [e] using each i

end Expands

/-! ## Lookups -/

/-- A result whose value is kept and whose rest is changed has the same
value. -/
theorem map_fst_map {ε α β γ : Type} (x : Except ε (α × β)) (f : α × β → α × γ) :
    (∀ p, (f p).1 = p.1) → (x.map f).map Prod.fst = x.map Prod.fst := by
  intro hf
  cases x <;> simp [Except.map, hf]

/-- `tryGet` with any budget is one level of `tryGetWith`. -/
theorem tryGet_eq_tryGetWith (t : Trie) (key : List Nibble) (fuel : Nat) :
    ∃ get, ∀ n pos, t.tryGet key fuel n pos = t.tryGetWith get key n pos := by
  cases fuel <;> exact ⟨_, fun _ _ => rfl⟩

/-- A lookup in a node over the database reads what the lookup reads in the
tree it stands for. The induction is on `Expands`. -/
theorem tryGet_expands (t : Trie) (key : List Nibble) {fuel : Nat} {n e : HexNode}
    (expands : Expands t.db fuel n e) :
    ∀ (get : HexNode → Nat → GetResult) (pos : Nat),
      (t.tryGet key fuel n pos).map Prod.fst = (t.tryGetWith get key e pos).map Prod.fst := by
  induction expands with
  | @nil fuel => intro _ _; cases fuel <;> rfl
  | @value fuel v => intro _ _; cases fuel <;> rfl
  | @short fuel k v e _ ih =>
    intro get pos
    obtain ⟨below, level⟩ := tryGet_eq_tryGetWith t key fuel
    rw [level, Trie.tryGetWith_short, Trie.tryGetWith_short]
    split_ifs
    · rfl
    · rw [map_fst_map, map_fst_map, ← level]
      · exact ih get _
      all_goals rintro ⟨_, _, _⟩; rfl
  | @full fuel cs es _ ih =>
    intro get pos
    obtain ⟨below, level⟩ := tryGet_eq_tryGetWith t key fuel
    rw [level]
    cases hi : key[pos]? with
    | none => simp only [Trie.tryGetWith, hi]
    | some i =>
      rw [Trie.tryGetWith_full_some _ t key cs hi, Trie.tryGetWith_full_some _ t key es hi,
        map_fst_map, map_fst_map, ← level]
      · exact ih i get _
      all_goals rintro ⟨_, _, _⟩; rfl
  | @hash fuel h m e node _ _ ih =>
    intro get pos
    have resolved : t.resolveHash h (key.take pos) = .ok m := by simp only [Trie.resolveHash, node]
    show (t.tryGetWith (t.tryGet key fuel) key (.hash h) pos).map Prod.fst = _
    rw [Trie.tryGetWith_hash_ok _ t key h resolved, map_fst_map]
    · exact ih get pos
    · rintro ⟨_, _, _⟩; rfl

/-- `TryGet` on a trie whose root stands for a tree of the shape: the value
the tree holds at the key. -/
theorem TryGet_expands (t : Trie) {fuel : Nat} {e : HexNode} (expands : Expands t.db fuel t.root e)
    (wf : e.Wf) (key : List UInt8) : (t.TryGet fuel key).1 = .ok (e.lookup (keybytesToHex key)) := by
  have terminated : Terminated ((keybytesToHex key).drop 0) := by simpa using terminated_keybytesToHex key
  have same := tryGet_expands t (keybytesToHex key) expands (fun _ _ => .error .fuelExhausted) 0
  rw [tryGetWith_wf _ t _ e 0 wf terminated, List.drop_zero] at same
  unfold Trie.TryGet
  cases run : t.tryGet (keybytesToHex key) fuel t.root 0 with
  | error err => rw [run] at same; cases same
  | ok r =>
    rw [run] at same
    obtain ⟨value, newroot, didResolve⟩ := r
    cases same
    rfl

/-! ## Insertion -/

/-- `insert` with any budget is one level of `insertWith`. -/
theorem insert_eq_insertWith (t : Trie) (fuel : Nat) :
    ∃ ins, ∀ n pre key value, t.insert fuel n pre key value = t.insertWith ins n pre key value := by
  cases fuel <;> exact ⟨_, fun _ _ _ _ => rfl⟩

/-- At the end of the key, a short or a full node is replaced by the value. -/
theorem insertWith_loaded_nil (t : Trie) (ins : HexNode → List Nibble → List Nibble → HexNode → UpdateResult)
    {e : HexNode} (loaded : e.isLoaded = true) (pre : List Nibble) (value : HexNode) :
    t.insertWith ins e pre [] value = .ok (true, value) := by
  cases e <;> first | rfl | simp [isLoaded] at loaded

/-- A hash node the database resolves: the insertion into the loaded node,
which is kept when nothing changes. -/
theorem insertWith_hash_cons (t : Trie) (ins : HexNode → List Nibble → List Nibble → HexNode → UpdateResult)
    {h : List UInt8} {pre : List Nibble} {rn : HexNode} (resolved : t.resolveHash h pre = .ok rn)
    {x : Nibble} {xs : List Nibble} {value nn : HexNode} {d : Bool} (run : ins rn pre (x :: xs) value = .ok (d, nn)) :
    t.insertWith ins (.hash h) pre (x :: xs) value = .ok (d, if d then nn else rn) := by
  cases d <;> simp [Trie.insertWith, resolved, run]

/-- An insertion into a node over the database does what it does in the tree
the node stands for: the same answer, and a node that stands for the tree it
gives there; a clean insertion gives the tree back. The induction is on
`Expands`. -/
theorem insert_expands (t : Trie) (w : List UInt8) {fuel : Nat} {n e : HexNode}
    (expands : Expands t.db fuel n e) :
    ∀ (ins : HexNode → List Nibble → List Nibble → HexNode → UpdateResult) (pre key : List Nibble)
      (dirty : Bool) (e' : HexNode), t.insertWith ins e pre key (.value w) = .ok (dirty, e') →
      (dirty = false → e' = e) ∧
        ∃ n', t.insert fuel n pre key (.value w) = .ok (dirty, n') ∧ Expands t.db fuel n' e' := by
  induction expands with
  | @nil fuel =>
    intro ins pre key dirty e' run
    obtain ⟨below, level⟩ := insert_eq_insertWith t fuel
    rw [level]
    cases key with
    | nil => cases run; exact ⟨fun h => absurd h (by decide), _, rfl, .value w⟩
    | cons x xs => cases run; exact ⟨fun h => absurd h (by decide), _, rfl, .short _ (.value w)⟩
  | @value fuel v =>
    intro ins pre key dirty e' run
    obtain ⟨below, level⟩ := insert_eq_insertWith t fuel
    rw [level]
    cases key with
    | nil =>
      cases run
      refine ⟨fun clean => ?_, _, rfl, .value w⟩
      rw [show v = w by simpa using clean]
    | cons x xs => cases run
  | @short fuel k v e below ih =>
    intro ins pre key dirty e' run
    obtain ⟨G, level⟩ := insert_eq_insertWith t fuel
    rw [level]
    cases key with
    | nil => cases run; exact ⟨fun h => absurd h (by decide), _, rfl, .value w⟩
    | cons x xs =>
      simp only [Trie.insertWith] at run ⊢
      split_ifs at run ⊢ with whole
      · -- the whole key of the short node matches: the insertion below it
        cases inner : t.insertWith ins e (pre ++ (x :: xs).take (prefixLen (x :: xs) k))
            ((x :: xs).drop (prefixLen (x :: xs) k)) (.value w) with
        | error err => rw [inner] at run; cases run
        | ok r =>
          obtain ⟨d, ee⟩ := r
          obtain ⟨_, nn, run', expands'⟩ := ih ins _ _ d ee inner
          rw [level] at run'
          rw [inner] at run
          rw [run']
          cases d
          · cases run; exact ⟨fun _ => rfl, _, rfl, .short k below⟩
          · cases run; exact ⟨fun h => absurd h (by decide), _, rfl, .short k expands'⟩
      -- the keys part: a branch over the node's value and the new value
      all_goals
        cases hi : k[prefixLen (x :: xs) k]? <;> cases hj : (x :: xs)[prefixLen (x :: xs) k]? <;>
          simp only [hi, hj] at run ⊢ <;> cases run
      · exact ⟨fun h => absurd h (by decide), _, rfl, below.branch _ _ _ _ w⟩
      · exact ⟨fun h => absurd h (by decide), _, rfl, .short _ (below.branch _ _ _ _ w)⟩
  | @full fuel cs es below ih =>
    intro ins pre key dirty e' run
    obtain ⟨G, level⟩ := insert_eq_insertWith t fuel
    rw [level]
    cases key with
    | nil => cases run; exact ⟨fun h => absurd h (by decide), _, rfl, .value w⟩
    | cons x xs =>
      simp only [Trie.insertWith] at run ⊢
      cases inner : t.insertWith ins (es x) (pre ++ [x]) xs (.value w) with
      | error err => rw [inner] at run; cases run
      | ok r =>
        obtain ⟨d, ee⟩ := r
        obtain ⟨_, nn, run', expands'⟩ := ih x ins _ _ d ee inner
        rw [level] at run'
        rw [inner] at run
        rw [run']
        cases d
        · cases run; exact ⟨fun _ => rfl, _, rfl, .full below⟩
        · cases run
          exact ⟨fun h => absurd h (by decide), _, rfl, .full (Expands.update below x expands')⟩
  | @hash fuel h m e node loaded below ih =>
    intro ins pre key dirty e' run
    show (dirty = false → e' = e) ∧
      ∃ n', t.insertWith (t.insert fuel) (.hash h) pre key (.value w) = .ok (dirty, n') ∧ _
    cases key with
    | nil =>
      rw [insertWith_loaded_nil t ins (Expands.hash node loaded below).isLoaded_of_hash] at run
      cases run
      exact ⟨fun h => absurd h (by decide), _, rfl, .value w⟩
    | cons x xs =>
      have resolved : t.resolveHash h pre = .ok m := by simp only [Trie.resolveHash, node]
      obtain ⟨clean, nn, run', expands'⟩ := ih ins pre (x :: xs) dirty e' run
      rw [insertWith_hash_cons t _ resolved run']
      refine ⟨clean, _, rfl, ?_⟩
      cases dirty
      · rw [clean rfl]
        exact below.mono (Nat.le_succ fuel)
      · exact expands'.mono (Nat.le_succ fuel)

/-! ## Deletion -/

/-- `delete` with any budget is one level of `deleteWith`. -/
theorem delete_eq_deleteWith (t : Trie) (fuel : Nat) :
    ∃ del, ∀ n pre key, t.delete fuel n pre key = t.deleteWith del n pre key := by
  cases fuel <;> exact ⟨_, fun _ _ _ => rfl⟩

/-- A hash node the database resolves: the deletion in the loaded node, which
is kept when nothing changes. -/
theorem deleteWith_hash (t : Trie) (del : HexNode → List Nibble → List Nibble → UpdateResult)
    {h : List UInt8} {pre : List Nibble} {rn : HexNode} (resolved : t.resolveHash h pre = .ok rn)
    {key : List Nibble} {nn : HexNode} {d : Bool} (run : del rn pre key = .ok (d, nn)) :
    t.deleteWith del (.hash h) pre key = .ok (d, if d then nn else rn) := by
  cases d <;> simp [Trie.deleteWith, resolved, run]

/-- `remainingPos` reads only which children are nil. -/
theorem remainingPos_congr {K : Type} {cs es : Fin 17 → Node K} (h : ∀ i, (cs i).isNil = (es i).isNil) :
    remainingPos cs = remainingPos es := by
  simp only [remainingPos, h]

/-- `resolve` keeps a node that is not a hash node. -/
theorem resolve_of_isHash (t : Trie) {n : HexNode} (h : n.isHash = false) (pre : List Nibble) :
    t.resolve n pre = .ok n := by
  cases n <;> first | rfl | simp [isHash] at h

/-- `resolve` of a node over the database: a node that is not a hash node and
stands for the same tree. -/
theorem resolve_expands (t : Trie) {fuel : Nat} {n e : HexNode} (expands : Expands t.db fuel n e)
    (pre : List Nibble) : ∃ m, t.resolve n pre = .ok m ∧ m.isHash = false ∧ Expands t.db fuel m e := by
  cases expands with
  | nil => exact ⟨_, rfl, rfl, .nil⟩
  | value v => exact ⟨_, rfl, rfl, .value v⟩
  | short k below => exact ⟨_, rfl, rfl, .short k below⟩
  | full each => exact ⟨_, rfl, rfl, .full each⟩
  | hash node loaded below =>
    exact ⟨_, by simp only [Trie.resolve, Trie.resolveHash, node], isHash_of_isLoaded loaded,
      below.mono (Nat.le_succ _)⟩

/-- Collapsing a full node left with one child over the database: what it gives
in the tree, with the child loaded for the check where it is a hash node. -/
theorem collapseTo_expands (t : Trie) {fuel : Nat} {cs es : Fin 17 → HexNode}
    (each : ∀ i, Expands t.db fuel (cs i) (es i)) (i : Fin 17) (pre : List Nibble) {d : Bool} {e' : HexNode}
    (run : t.collapseTo es i pre = .ok (d, e')) :
    d = true ∧ ∃ n', t.collapseTo cs i pre = .ok (d, n') ∧ Expands t.db fuel n' e' ∧ n'.isHash = false := by
  unfold Trie.collapseTo at run ⊢
  split_ifs at run ⊢ with h16
  · -- the tree's child is in memory; the node's is loaded if it is a hash node
    have resolvedE : t.resolve (es i) pre = .ok (es i) := resolve_of_isHash t (each i).isHash_eq pre
    obtain ⟨m', resolvedC, notHash, below⟩ := resolve_expands t (each i) pre
    rw [resolvedE] at run
    rw [resolvedC]
    have child := each i
    generalize es i = x at run below child
    cases below with
    | short ck exc => cases run; exact ⟨rfl, _, rfl, .short _ exc, rfl⟩
    | nil => cases run; exact ⟨rfl, _, rfl, .short _ child, rfl⟩
    | value v => cases run; exact ⟨rfl, _, rfl, .short _ child, rfl⟩
    | full _ => cases run; exact ⟨rfl, _, rfl, .short _ child, rfl⟩
    | hash => simp [isHash] at notHash
  · cases run
    exact ⟨rfl, _, rfl, .short _ (each i), rfl⟩

/-- A deletion from a node over the database does what it does in the tree the
node stands for: the same answer, and a node that stands for the tree it
gives there, which is not a hash node when something changed; a clean
deletion gives the tree back. The induction is on `Expands`. -/
theorem delete_expands (t : Trie) {fuel : Nat} {n e : HexNode} (expands : Expands t.db fuel n e) :
    ∀ (del : HexNode → List Nibble → List Nibble → UpdateResult) (pre key : List Nibble)
      (dirty : Bool) (e' : HexNode), t.deleteWith del e pre key = .ok (dirty, e') →
      (dirty = false → e' = e) ∧
        ∃ n', t.delete fuel n pre key = .ok (dirty, n') ∧ Expands t.db fuel n' e' ∧
          (dirty = true → n'.isHash = false) := by
  induction expands with
  | @nil fuel =>
    intro del pre key dirty e' run
    obtain ⟨G, level⟩ := delete_eq_deleteWith t fuel
    rw [level]
    cases run
    exact ⟨fun _ => rfl, _, rfl, .nil, fun _ => rfl⟩
  | @value fuel v =>
    intro del pre key dirty e' run
    obtain ⟨G, level⟩ := delete_eq_deleteWith t fuel
    rw [level]
    cases run
    exact ⟨fun h => absurd h (by decide), _, rfl, .nil, fun _ => rfl⟩
  | @short fuel k v e below ih =>
    intro del pre key dirty e' run
    obtain ⟨G, level⟩ := delete_eq_deleteWith t fuel
    rw [level]
    simp only [Trie.deleteWith] at run ⊢
    split_ifs at run ⊢ with miss ends
    · cases run; exact ⟨fun _ => rfl, _, rfl, .short k below, fun h => absurd h (by decide)⟩
    · cases run; exact ⟨fun h => absurd h (by decide), _, rfl, .nil, fun _ => rfl⟩
    · -- the key goes on below the node: the deletion there, then a merge
      cases inner : t.deleteWith del e (pre ++ key.take k.length) (key.drop k.length) with
      | error err => rw [inner] at run; cases run
      | ok r =>
        obtain ⟨d, ee⟩ := r
        obtain ⟨_, nn, run', expands', notHash⟩ := ih del _ _ d ee inner
        rw [level] at run'
        rw [inner] at run
        rw [run']
        cases d
        · cases run; exact ⟨fun _ => rfl, _, rfl, .short k below, fun h => absurd h (by decide)⟩
        · -- a short child is merged into the node, in the tree and over the database alike
          have nh := notHash rfl
          cases expands' with
          | nil => cases run; exact ⟨fun h => absurd h (by decide), _, rfl, .short k .nil, fun _ => rfl⟩
          | value w =>
            cases run; exact ⟨fun h => absurd h (by decide), _, rfl, .short k (.value w), fun _ => rfl⟩
          | short ck exc =>
            cases run; exact ⟨fun h => absurd h (by decide), _, rfl, .short _ exc, fun _ => rfl⟩
          | full each =>
            cases run; exact ⟨fun h => absurd h (by decide), _, rfl, .short k (.full each), fun _ => rfl⟩
          | hash => simp [isHash] at nh
  | @full fuel cs es below ih =>
    intro del pre key dirty e' run
    obtain ⟨G, level⟩ := delete_eq_deleteWith t fuel
    rw [level]
    cases key with
    | nil => cases run
    | cons x xs =>
      simp only [Trie.deleteWith] at run ⊢
      cases inner : t.deleteWith del (es x) (pre ++ [x]) xs with
      | error err => rw [inner] at run; cases run
      | ok r =>
        obtain ⟨d, ee⟩ := r
        obtain ⟨_, nn, run', expands', _⟩ := ih x del _ _ d ee inner
        rw [level] at run'
        rw [inner] at run
        rw [run']
        cases d
        · cases run; exact ⟨fun _ => rfl, _, rfl, .full below, fun h => absurd h (by decide)⟩
        · -- the children left decide a collapse, alike in the tree and over the database
          have each := Expands.update below x expands'
          simp only at run ⊢
          rw [remainingPos_congr fun i => ((each i).isNil_eq).symm]
          split_ifs at run ⊢
          · obtain ⟨rfl, n', collapsed, expands'', notHash⟩ := collapseTo_expands t each _ pre run
            exact ⟨fun h => absurd h (by decide), n', collapsed, expands'', fun _ => notHash⟩
          · cases run; exact ⟨fun h => absurd h (by decide), _, rfl, .full each, fun _ => rfl⟩
  | @hash fuel h m e node loaded below ih =>
    intro del pre key dirty e' run
    show (dirty = false → e' = e) ∧ ∃ n', t.deleteWith (t.delete fuel) (.hash h) pre key = .ok (dirty, n') ∧ _
    have resolved : t.resolveHash h pre = .ok m := by simp only [Trie.resolveHash, node]
    obtain ⟨clean, nn, run', expands', notHash⟩ := ih del pre key dirty e' run
    rw [deleteWith_hash t _ resolved run']
    refine ⟨clean, _, rfl, ?_, ?_⟩
    · cases dirty
      · rw [clean rfl]
        exact below.mono (Nat.le_succ fuel)
      · exact expands'.mono (Nat.le_succ fuel)
    · intro d
      subst d
      exact notHash rfl

end FiscoBcos.Trie
