import Zenith.Storage.SkipReads

/-!
# Zenith — readers beside the writer

Readers of a skip list take no lock: while one of them follows the pointers, the
writer goes on storing new ones. So each load of a reader is a step of its own here,
and the list may have changed between two of them.

The insertions come one after the other, and a store is published with release
order. An acquire load then finds the list as it was at some moment, and never at an
earlier one than the load before it: these moments are the parameter of the readers
(`Glimpses`). `max_height_` is loaded relaxed, so it may be any height the list ever
had.

Keys and pointers are safe to read in this way, values are not. An insertion of a key
that is there assigns a `string_view` to `x->value`, which is two words and no atomic,
and a reader copies it in two loads. So the two words are stored and loaded one by one
here, and what a view shows that has a word of one value and a word of another is up to
the parameter `Tearing`: it may be bytes that nobody ever wrote. What is proved about
values is proved of keys that no insertion finds in the list while the reader is under
way (`Overwritten`); the rest holds of all keys.

What carries the proofs is that chains only grow: a node that a search has passed at
some level is there at every later moment (`Unfolding`), and shows the same value as
long as its key is not written again. Main results:

* `get_beside_inserts` — `Get` ends, and finds the key if and only if it was there at one
  moment between its first and its last load, with the value it had then unless that
  is overwritten;
* `scan_beside_inserts` — a scan ends and is ascending, shows only keys that were there
  meanwhile, again with their values, and misses no key that was there when it began.
-/

namespace Zenith.SkipList

-- ---------------------------------------------------------------------------
-- Readers, load by load
-- ---------------------------------------------------------------------------

/-- What a view shows whose first word (the pointer) was stored with one value and whose
second (the size) with another. All that is known of it is that the two words of one
value show that value. -/
structure Tearing where
  view : Bytes → Bytes → Bytes
  view_self : ∀ v, view v v = v

/-- The states after each store of an insertion, in which the two words of a value that
is replaced are stored one after the other. -/
def wordStates (tearing : Tearing) (s : SkipList) (op : Insertion) :
    Except Fault (List SkipList) := do
  let (x, _) ← s.findGreaterOrEqual op.key
  match ← s.holding op.key x with
  | some x =>
    let node ← s.nodeAt x
    let between ← s.setValue x (tearing.view op.value node.value)
    return [between, ← between.setValue x op.value]
  | none => s.insertStates op.key op.value op.height

/-- The states after each store of some insertions. -/
def insertionStates (tearing : Tearing) (s : SkipList) :
    List Insertion → Except Fault (List SkipList)
  | [] => .ok []
  | op :: ops => do
    let stores ← s.wordStates tearing op
    return stores ++ (← insertionStates tearing (stores.getLastD s) ops)

/-- All states of a list that is filled by these insertions. -/
def history (tearing : Tearing) (ops : List Insertion) : Except Fault (List SkipList) := do
  return new :: (← new.insertionStates tearing ops)

/-- Some insertion finds this key in the list and replaces its value. -/
def Overwritten (key : Bytes) (known : List Bytes) : List Insertion → Prop
  | [] => False
  | op :: ops => (op.key = key ∧ key ∈ known) ∨ Overwritten key (op.key :: known) ops

instance (key : Bytes) : ∀ (known : List Bytes) (ops : List Insertion),
    Decidable (Overwritten key known ops)
  | _, [] => isFalse id
  | known, op :: ops =>
    have := instDecidableOverwritten key (op.key :: known) ops
    inferInstanceAs (Decidable ((op.key = key ∧ key ∈ known) ∨ Overwritten key _ ops))

section

variable (tearing : Tearing) (sees : Nat → SkipList)

/-- The loop of the searches when the `n`-th load finds the list as `sees n`: the number
of loads made, and the node that the search ends in front of. -/
def searchAcross (test : Bytes → Bool) :
    Nat → Nat → Addr → Nat → Except Fault (Nat × Option Addr)
  | 0, _, _, _ => .error (.thrown "still searching")
  | bound + 1, n, x, level => do
    let next ← (sees n).next x level
    match next, ← (sees n).passes test next with
    | some y, true => searchAcross test bound (n + 1) y level
    | _, _ =>
      match level with
      | 0 => .ok (n + 1, next)
      | l + 1 => searchAcross test bound (n + 1) x l

/-- `FindGreaterOrEqual`, for the height that was loaded. -/
def findGreaterOrEqualAcross (maxHeight bound : Nat) (key : Bytes) :
    Except Fault (Nat × Option Addr) :=
  searchAcross sees (keyIsAfterNode key) bound 0 head (maxHeight - 1)

/-- The copy of the value of a node: a load for each of its words. -/
def valueAcross (n : Nat) (x : Addr) : Except Fault Bytes := do
  let first ← (sees n).nodeAt x
  let second ← (sees (n + 1)).nodeAt x
  return tearing.view first.value second.value

/-- `Get`, with the number of its loads. -/
def getAcross (maxHeight bound : Nat) (key : Bytes) : Except Fault (Nat × Option Bytes) := do
  let (n, x) ← findGreaterOrEqualAcross sees maxHeight bound key
  match x with
  | none => return (n, none)
  | some x =>
    -- the key of a node never changes
    let node ← (sees n).nodeAt x
    if node.key = key then return (n + 2, some (← valueAcross tearing sees n x))
    return (n + 1, none)

/-- The loop of `MemTable::scan`: a load for the key and the first word of the value, one
for the second word, and one for `Next`. -/
def scanFromAcross (stop : Bytes) :
    Nat → Nat → Position → Except Fault (Nat × List (Bytes × Bytes))
  | _, n, none => .ok (n, [])
  | 0, _, some _ => .error (.thrown "still iterating")
  | bound + 1, n, some x => do
    let node ← (sees n).nodeAt x
    if node.key > stop then return (n + 1, [])
    let value ← valueAcross tearing sees n x
    let (m, rows) ← scanFromAcross stop bound (n + 3) (← (sees (n + 2)).iterNext x)
    return (m, (node.key, value) :: rows)

/-- `MemTable::scan`, with the number of its loads. -/
def scanAcross (maxHeight bound : Nat) (start stop : Bytes) :
    Except Fault (Nat × List (Bytes × Bytes)) :=
  if start > stop then .ok (0, [])
  else do
    let (n, x) ← findGreaterOrEqualAcross sees maxHeight bound start
    scanFromAcross tearing sees stop bound n x

end

/-- What a reader finds: states of the history, none older than the one before. -/
def Glimpses (states : List SkipList) (sees : Nat → SkipList) : Prop :=
  ∃ moment : Nat → Nat, Monotone moment ∧ ∀ n, states[moment n]? = some (sees n)

-- ---------------------------------------------------------------------------
-- Chains that only grow
-- ---------------------------------------------------------------------------

/-- A state with the chains that its pointers spell. -/
abbrev Charted := SkipList × Chains

/-- A later state: no chain has lost a node, and the values of some keys are as they were. -/
structure Extends (kept : Bytes → Prop) (p q : Charted) : Prop where
  level : ∀ i, p.2.level i ⊆ q.2.level i
  shown : ∀ z ∈ p.2.level 0, kept z.2 → q.1.shown z = p.1.shown z

namespace Extends

variable {kept kept' : Bytes → Prop} {p q r : Charted}

/-- A state is as late as itself. -/
theorem refl (kept : Bytes → Prop) (p : Charted) : Extends kept p p :=
  ⟨fun _ => List.Subset.refl _, fun _ _ _ => rfl⟩

/-- What was not lost twice was not lost. -/
theorem trans (h : Extends kept p q) (h' : Extends kept q r) : Extends kept p r where
  level i := List.Subset.trans (h.level i) (h'.level i)
  shown z hz hkept := (h'.shown z (h.level 0 hz) hkept).trans (h.shown z hz hkept)

/-- Fewer keys are easier to keep. -/
theorem mono (h : Extends kept p q) (hle : ∀ k, kept' k → kept k) : Extends kept' p q :=
  ⟨h.level, fun z hz hkept => h.shown z hz (hle z.2 hkept)⟩

end Extends

/-- The nodes that a search has passed stay on their chains, which end up within
`final`, and the nodes of kept keys keep their values. -/
structure Unfolding (kept : Bytes → Prop) (sees : Nat → SkipList) (towers : Nat → Chains)
    (final : List Link) : Prop where
  spells : ∀ n, Spells (sees n) (towers n)
  grows : ∀ n, Extends kept (sees n, towers n) (sees (n + 1), towers (n + 1))
  within : ∀ n, (towers n).level 0 ⊆ final

/-- The nodes that are left for one that goes right from `x`. -/
def leftOf (final : List Link) (x : Link) : List Link :=
  final.filter fun z => decide (x.1 = head ∨ x.2 < z.2)

/-- Going right leaves fewer nodes. -/
theorem length_leftOf_lt {final : List Link} {x y : Link} (hy : y ∈ final) (hhead : y.1 ≠ head)
    (hxy : x.1 = head ∨ x.2 < y.2) : (leftOf final y).length < (leftOf final x).length := by
  have hsub : leftOf final y =
      (leftOf final x).filter fun z => decide (y.1 = head ∨ y.2 < z.2) := by
    rw [leftOf, leftOf, List.filter_filter]
    refine List.filter_congr fun z _ => ?_
    rw [Bool.eq_iff_iff, Bool.and_eq_true, decide_eq_true_eq, decide_eq_true_eq]
    refine ⟨fun hz => ⟨hz, ?_⟩, And.left⟩
    exact hxy.imp id fun hlt => hlt.trans (hz.resolve_left hhead)
  rw [hsub, List.length_filter_lt_length_iff_exists]
  refine ⟨y, List.mem_filter.mpr ⟨hy, decide_eq_true hxy⟩, ?_⟩
  rw [decide_eq_true_eq]
  exact fun h => h.elim hhead (lt_irrefl _)

/-- The first link of an ascending chain is not behind any other. -/
theorem head?_le_of_mem {r : List Link} (hasc : r.Pairwise fun a b => a.2 < b.2) {z : Link}
    (hz : z ∈ r) : ∃ y ∈ r.head?, y.2 ≤ z.2 := by
  cases r with
  | nil => exact absurd hz List.not_mem_nil
  | cons y r =>
    refine ⟨y, rfl, ?_⟩
    rcases List.mem_cons.mp hz with rfl | hz
    · exact le_rfl
    · exact ((List.pairwise_cons.mp hasc).1 z hz).le

section Search

variable {tearing : Tearing} {kept : Bytes → Prop} {sees : Nat → SkipList} {towers : Nat → Chains}
  {final : List Link} {test : Bytes → Bool} {x : Addr} {o : Option Addr}

/-- A turn of the loop to the right, -/
theorem searchAcross_right {n i : Nat} {y : Addr} (hnext : (sees n).next x i = .ok (some y))
    (hpass : (sees n).passes test (some y) = .ok true) (bound : Nat) :
    searchAcross sees test (bound + 1) n x i = searchAcross sees test bound (n + 1) y i := by
  rw [searchAcross, hnext, Except.ok_bind, hpass]
  rfl

/-- one that goes down, -/
theorem searchAcross_down {n i : Nat} (hnext : (sees n).next x (i + 1) = .ok o)
    (hpass : (sees n).passes test o = .ok false) (bound : Nat) :
    searchAcross sees test (bound + 1) n x (i + 1) =
      searchAcross sees test bound (n + 1) x i := by
  rw [searchAcross, hnext, Except.ok_bind, hpass]
  cases o <;> rfl

/-- and the last one. -/
theorem searchAcross_stop {n : Nat} (hnext : (sees n).next x 0 = .ok o)
    (hpass : (sees n).passes test o = .ok false) (bound : Nat) :
    searchAcross sees test (bound + 1) n x 0 = .ok (n + 1, o) := by
  rw [searchAcross, hnext, Except.ok_bind, hpass]
  cases o <;> rfl

namespace Unfolding

/-- Chains grow from any moment to a later one. -/
theorem mono (h : Unfolding kept sees towers final) {n m : Nat} (hnm : n ≤ m) (i : Nat) :
    (towers n).level i ⊆ (towers m).level i := by
  induction m, hnm using Nat.le_induction with
  | base => exact fun _ hz => hz
  | succ m _ ih => exact fun _ hz => (h.grows m).level i (ih hz)

/-- A node that was passed is passed at the next moment, on the same level or below. -/
theorem passed_succ (h : Unfolding kept sees towers final) {n i j : Nat} (hji : j ≤ i) {x : Link}
    (hx : x ∈ headLink :: (towers n).passed test i) :
    x ∈ headLink :: (towers (n + 1)).passed test j := by
  rcases List.mem_cons.mp hx with rfl | hx
  · exact List.mem_cons_self
  · obtain ⟨hmem, htest⟩ := Tower.of_mem_passed (((towers n).passed_sublist test hji).subset hx)
    exact List.mem_cons_of_mem _ (List.mem_filter.mpr ⟨(h.grows n).level j hmem, htest⟩)

/-- **A search beside a writer**, by induction on its loads: it is at a node that it
passes at the present moment, and ends where a search at that moment ends. -/
theorem searchAcross_spec (h : Unfolding kept sees towers final) (hp : Tower.Downward test)
    {bound n i : Nat} (hi : i < kMaxHeight) {x : Link}
    (hx : x ∈ headLink :: (towers n).passed test i)
    (hbound : i + 1 + (leftOf final x).length ≤ bound) :
    ∃ m, n ≤ m ∧ m < n + bound ∧
      searchAcross sees test bound n x.1 i = .ok (m + 1, ahead (towers m) test 0) := by
  induction bound generalizing n i x with
  | zero => omega
  | succ bound ih =>
    obtain ⟨l, after, hsplit⟩ := List.append_of_mem hx
    have hnext := (h.spells n).next_passed hp hi hsplit
    -- whether this level goes on behind the node at the present moment; if it does, the node
    -- behind is one of those left in `final`, and there are fewer behind it
    cases after with
    | nil =>
      have hpass := (h.spells n).passes_ahead test i
      cases i with
      | zero => exact ⟨n, le_rfl, by omega, searchAcross_stop hnext hpass bound⟩
      | succ i =>
        obtain ⟨m, hnm, hm, hsearch⟩ := ih (by omega) (h.passed_succ (Nat.le_succ i) hx) (by omega)
        exact ⟨m, by omega, by omega, (searchAcross_down hnext hpass bound).trans hsearch⟩
    | cons y after =>
      have hy : y ∈ (towers n).passed test i ∧ (x.1 = head ∨ x.2 < y.2) := by
        cases l with
        | nil =>
          obtain ⟨rfl, hpassed⟩ := List.cons_eq_cons.mp hsplit
          exact ⟨by simp [hpassed], .inl rfl⟩
        | cons _ l =>
          rw [List.cons_append] at hsplit
          obtain ⟨-, hpassed⟩ := List.cons_eq_cons.mp hsplit
          have hasc : ((towers n).passed test i).Pairwise fun a b => a.2 < b.2 :=
            ((towers n).asc_level i).sublist List.filter_sublist
          rw [hpassed, List.pairwise_append, List.pairwise_cons] at hasc
          exact ⟨by simp [hpassed], .inr (hasc.2.1.1 y List.mem_cons_self)⟩
      obtain ⟨hmem, htest⟩ := Tower.of_mem_passed hy.1
      have hzero := (towers n).mem_zero hmem
      have hpass := ((h.spells n).passes_link hmem).trans (congrArg Except.ok htest)
      have hless := length_leftOf_lt (h.within n hzero) ((h.spells n).node y hzero).1 hy.2
      obtain ⟨m, hnm, hm, hsearch⟩ := ih hi
        (h.passed_succ le_rfl (List.mem_cons_of_mem _ hy.1)) (by omega)
      exact ⟨m, by omega, by omega, (searchAcross_right hnext hpass bound).trans hsearch⟩

/-- **FindGreaterOrEqual** ends in front of the node that it would find at one moment. -/
theorem findGreaterOrEqualAcross_spec (h : Unfolding kept sees towers final) {maxHeight bound : Nat}
    (hone : 1 ≤ maxHeight) (hmax : maxHeight ≤ kMaxHeight)
    (hbound : kMaxHeight + final.length ≤ bound) (key : Bytes) :
    ∃ m < bound, findGreaterOrEqualAcross sees maxHeight bound key =
      .ok (m + 1, ((towers m).above key 0).head?.map Prod.fst) := by
  have hleft : (leftOf final headLink).length ≤ final.length := List.length_filter_le ..
  have hstart : headLink ∈ headLink :: (towers 0).passed (Tower.before key) (maxHeight - 1) :=
    List.mem_cons_self
  have hloads : maxHeight - 1 + 1 + (leftOf final headLink).length ≤ bound := by omega
  obtain ⟨m, -, hm, hsearch⟩ :=
    h.searchAcross_spec (Tower.downward_before key) (by omega) hstart hloads
  refine ⟨m, by omega, ?_⟩
  rw [findGreaterOrEqualAcross, Spells.keyIsAfterNode_eq]
  exact hsearch

/-- A node on the chain of some moment has its key, and its value is what `Get` returns. -/
theorem get_of_mem (h : Unfolding kept sees towers final) {m : Nat} {y : Link}
    (hy : y ∈ (towers m).level 0) :
    ∃ node, (sees m).nodeAt y.1 = .ok node ∧ node.key = y.2 ∧
      (sees m).get y.2 = .ok (some node.value) ∧ (sees m).shown y = (y.1, node.key, node.value) := by
  obtain ⟨node, hnode, hkey⟩ := (h.spells m).nodeAt hy
  obtain ⟨node', hnode', hshown⟩ := (h.spells m).nodeAt_shown hy
  obtain rfl := Except.ok.inj (hnode.symm.trans hnode')
  exact ⟨node, hnode, hkey, by rw [(h.spells m).get_spec, Spells.lookup_of_shown hy hshown], hshown⟩

/-- **The copy of a value**: both words are those of one value, if its key is kept. -/
theorem valueAcross_spec (h : Unfolding kept sees towers final) (tearing : Tearing) {m : Nat}
    {y : Link}
    (hy : y ∈ (towers m).level 0) :
    ∃ node v, (sees m).nodeAt y.1 = .ok node ∧ node.key = y.2 ∧
      valueAcross tearing sees m y.1 = .ok v ∧ (sees m).get y.2 = .ok (some node.value) ∧
      (kept y.2 → node.value = v) := by
  obtain ⟨first, hfirst, hkey, hget, hshown⟩ := h.get_of_mem hy
  obtain ⟨second, hsecond, -, -, hshown'⟩ := h.get_of_mem ((h.grows m).level 0 hy)
  refine ⟨first, tearing.view first.value second.value, hfirst, hkey, ?_, hget, fun hkept => ?_⟩
  · simp only [valueAcross, hfirst, hsecond, Except.ok_bind]
    rfl
  · have hsame : second.value = first.value := by
      have heq := (h.grows m).shown y hy hkept
      rw [hshown, hshown'] at heq
      exact congrArg (fun e => e.2.2) heq
    rw [hsame, tearing.view_self]

/-- **Get beside a writer**: it ends and finds the key if it was there at one of its
moments, with the value of that moment if the key is kept. -/
theorem getAcross_spec (h : Unfolding kept sees towers final) {maxHeight bound : Nat}
    (hone : 1 ≤ maxHeight) (hmax : maxHeight ≤ kMaxHeight)
    (hbound : kMaxHeight + final.length ≤ bound) (key : Bytes) :
    ∃ n v, getAcross tearing sees maxHeight bound key = .ok (n, v) ∧ n ≤ bound + 2 ∧
      ∃ m < n, ∃ w, (sees m).get key = .ok w ∧ w.isSome = v.isSome ∧ (kept key → w = v) := by
  obtain ⟨m, hm, hfind⟩ := h.findGreaterOrEqualAcross_spec hone hmax hbound key
  simp only [getAcross, hfind, Except.ok_bind]
  rcases Spells.mem_or_forall_ne (towers m) key with ⟨y, hy, rfl⟩ | hnone
  · -- the node is there, and the words of its value are loaded last
    obtain ⟨node, v, hnode, hkey, hvalue, hget, hkept⟩ :=
      h.valueAcross_spec tearing ((h.grows m).level 0 hy)
    rw [(Tower.head?_above rfl).mpr hy]
    refine ⟨m + 3, some v, ?_, by omega, m + 1, by omega, some node.value, hget, rfl,
      fun hk => congrArg some (hkept hk)⟩
    simp only [Option.map_some, hnode, hvalue, Except.ok_bind, hkey, if_pos]
    rfl
  · have habsent : (sees m).get key = .ok none := by
      rw [(h.spells m).get_spec, Spells.lookup_of_forall_ne hnone]
    cases habove : ((towers m).above key 0).head? with
    | none => exact ⟨m + 1, none, rfl, by omega, m, by omega, none, habsent, rfl, fun _ => rfl⟩
    | some y =>
      obtain ⟨hy, -⟩ := Tower.of_mem_rest (List.mem_of_head? habove)
      obtain ⟨node, hnode, hkey, -⟩ := h.get_of_mem ((h.grows m).level 0 hy)
      refine ⟨m + 2, none, ?_, by omega, m, by omega, none, habsent, rfl, fun _ => rfl⟩
      simp only [Option.map_some, hnode, Except.ok_bind, if_neg (hkey ▸ hnone y hy)]
      rfl

/-- **The loop of a scan**, by induction on its turns: at a node of the present chain, it
shows the keys from there on, all of those that are there now. -/
theorem scanFromAcross_spec (h : Unfolding kept sees towers final) (stop : Bytes) {bound n : Nat}
    {pos : Option Link} (hpos : ∀ y ∈ pos, y ∈ (towers n).level 0)
    (hbound : ∀ y ∈ pos, (leftOf final y).length < bound) :
    ∃ m rows, scanFromAcross tearing sees stop bound n (pos.map Prod.fst) = .ok (m, rows) ∧
      n ≤ m ∧ (rows.Pairwise fun a b => a.1 < b.1) ∧
      (∀ e ∈ rows, (∃ y ∈ pos, y.2 ≤ e.1) ∧ e.1 ≤ stop ∧
        ∃ j < m, ∃ w, (sees j).get e.1 = .ok (some w) ∧ (kept e.1 → w = e.2)) ∧
      ∀ z ∈ (towers n).level 0, (∃ y ∈ pos, y.2 ≤ z.2) → z.2 ≤ stop →
        ∃ v, (z.2, v) ∈ rows := by
  induction bound generalizing n pos with
  | zero =>
    cases pos with
    | none =>
      exact ⟨n, [], rfl, le_rfl, List.Pairwise.nil, fun e he => absurd he List.not_mem_nil,
        fun z _ hz => absurd hz (by simp)⟩
    | some y => exact absurd (hbound y rfl) (by omega)
  | succ bound ih =>
    cases pos with
    | none =>
      exact ⟨n, [], rfl, le_rfl, List.Pairwise.nil, fun e he => absurd he List.not_mem_nil,
        fun z _ hz => absurd hz (by simp)⟩
    | some y =>
      have hy := hpos y rfl
      obtain ⟨node, v, hnode, hkey, hvalue, hget, hkept⟩ :=
        h.valueAcross_spec tearing hy
      simp only [Option.map_some, scanFromAcross, hnode, hvalue, Except.ok_bind, hkey]
      by_cases hstop : y.2 > stop
      -- a key above the end: the scan breaks, and keys that are in range are not behind it
      · rw [if_pos hstop]
        refine ⟨n + 1, [], rfl, by omega, List.Pairwise.nil,
          fun e he => absurd he List.not_mem_nil, fun z _ hz hzstop => ?_⟩
        obtain ⟨y', hy', hle⟩ := hz
        obtain rfl := Option.some.inj hy'
        exact absurd (hle.trans hzstop) hstop.not_ge
      -- the node behind, by the chain at the next load
      have hlater : ∀ {z : Link}, z ∈ (towers n).level 0 → z ∈ (towers (n + 2)).level 0 :=
        fun hz => h.mono (Nat.le_add_right n 2) 0 hz
      obtain ⟨l, r, hsplit⟩ := List.append_of_mem (hlater hy)
      have hasc := (towers (n + 2)).asc
      rw [hsplit, List.pairwise_append, List.pairwise_cons] at hasc
      obtain ⟨-, ⟨hafter, hr⟩, hcross⟩ := hasc
      have hrmem : ∀ y' ∈ r.head?, y' ∈ (towers (n + 2)).level 0 ∧ y.2 < y'.2 := fun y' hy' =>
        ⟨by simp [hsplit, List.mem_of_mem_head? hy'], hafter y' (List.mem_of_mem_head? hy')⟩
      have hpos' : ∀ y' ∈ r.head?, y' ∈ (towers (n + 3)).level 0 := fun y' hy' =>
        (h.grows (n + 2)).level 0 (hrmem y' hy').1
      obtain ⟨m, rows, hscan, hnm, hrows, hshown, hall⟩ := ih hpos' fun y' hy' => by
        have hless := length_leftOf_lt (h.within _ (hrmem y' hy').1)
          ((h.spells _).node y' (hrmem y' hy').1).1 (.inr (hrmem y' hy').2)
        have := hbound y rfl
        omega
      rw [if_neg hstop, (h.spells (n + 2)).iterNext_spec hsplit, Except.ok_bind, hscan]
      refine ⟨m, (y.2, v) :: rows, rfl, by omega, ?_, fun e he => ?_,
        fun z hz hyz hzstop => ?_⟩
      · refine List.pairwise_cons.mpr ⟨fun e he => ?_, hrows⟩
        obtain ⟨⟨y', hy', hle⟩, -⟩ := hshown e he
        exact (hrmem y' hy').2.trans_le hle
      · rcases List.mem_cons.mp he with rfl | he
        · exact ⟨⟨y, rfl, le_rfl⟩, not_lt.mp hstop, n, by omega, node.value, hget, hkept⟩
        · obtain ⟨⟨y', hy', hle⟩, hrest⟩ := hshown e he
          exact ⟨⟨y, rfl, (hrmem y' hy').2.le.trans hle⟩, hrest⟩
      · obtain ⟨y', hy', hle⟩ := hyz
        obtain rfl := Option.some.inj hy'
        rcases hle.eq_or_lt with heq | hlt
        · exact ⟨v, heq ▸ List.mem_cons_self⟩
        · -- what is behind this node now is behind it at the next load, too
          have hzr : z ∈ r := by
            have hz' := hlater hz
            rw [hsplit, List.mem_append, List.mem_cons] at hz'
            rcases hz' with hzl | rfl | hzr
            · exact absurd (hcross z hzl y List.mem_cons_self) hlt.not_gt
            · exact absurd hlt (lt_irrefl _)
            · exact hzr
          obtain ⟨w, hw⟩ := hall z (h.mono (Nat.le_add_right n 3) 0 hz)
            (head?_le_of_mem hr hzr) hzstop
          exact ⟨w, List.mem_cons_of_mem _ hw⟩

/-- **A scan beside a writer**: it ends, ascends, has keys that were there meanwhile, and
misses none that was there at its beginning. -/
theorem scanAcross_spec (h : Unfolding kept sees towers final) {maxHeight bound : Nat}
    (hone : 1 ≤ maxHeight) (hmax : maxHeight ≤ kMaxHeight)
    (hbound : kMaxHeight + final.length ≤ bound) (start stop : Bytes) :
    ∃ n rows, scanAcross tearing sees maxHeight bound start stop = .ok (n, rows) ∧
      (rows.Pairwise fun a b => a.1 < b.1) ∧
      (∀ e ∈ rows, start ≤ e.1 ∧ e.1 ≤ stop ∧
        ∃ m < n, ∃ w, (sees m).get e.1 = .ok (some w) ∧ (kept e.1 → w = e.2)) ∧
      ∀ k v, start ≤ k → k ≤ stop → (sees 0).get k = .ok (some v) → ∃ w, (k, w) ∈ rows := by
  by_cases hgt : start > stop
  · refine ⟨0, [], by rw [scanAcross, if_pos hgt], List.Pairwise.nil,
      fun e he => absurd he List.not_mem_nil, fun k v hstart hstop => ?_⟩
    exact absurd (hstart.trans hstop) hgt.not_ge
  obtain ⟨m, -, hfind⟩ := h.findGreaterOrEqualAcross_spec hone hmax hbound start
  have hmem : ∀ y ∈ ((towers m).above start 0).head?, y ∈ (towers m).level 0 ∧ start ≤ y.2 :=
    fun y hy => ⟨(Tower.of_mem_rest (List.mem_of_mem_head? hy)).1,
      Tower.le_of_mem_above (List.mem_of_mem_head? hy)⟩
  have hpos : ∀ y ∈ ((towers m).above start 0).head?, y ∈ (towers (m + 1)).level 0 :=
    fun y hy => (h.grows m).level 0 (hmem y hy).1
  have hturns : ∀ y ∈ ((towers m).above start 0).head?, (leftOf final y).length < bound :=
    fun y _ => by
      have hleft : (leftOf final y).length ≤ final.length := List.length_filter_le ..
      simp only [kMaxHeight] at hbound
      omega
  -- the walk starts where the search ended, and ends behind stop
  obtain ⟨n, rows, hscan, -, hrows, hshown, hall⟩ := h.scanFromAcross_spec stop hpos hturns
  rw [scanAcross, if_neg hgt, hfind, Except.ok_bind]
  refine ⟨n, rows, hscan, hrows, fun e he => ?_, fun k v hstart hstop hk => ?_⟩
  · obtain ⟨⟨y, hy, hle⟩, hrest⟩ := hshown e he
    exact ⟨(hmem y hy).2.trans hle, hrest⟩
  · rcases Spells.mem_or_forall_ne (towers 0) k with ⟨z, hz, rfl⟩ | hnone
    · -- the key was there from the beginning, so the search ends at it or before it
      have hzm : z ∈ (towers m).above start 0 := by
        refine List.mem_filter.mpr ⟨h.mono (Nat.zero_le m) 0 hz, ?_⟩
        rw [Bool.not_eq_true', Tower.before_eq_false]
        exact hstart
      exact hall z (h.mono (Nat.zero_le _) 0 hz)
        (head?_le_of_mem (((towers m).asc_level 0).sublist List.filter_sublist) hzm) hstop
    · rw [(h.spells 0).get_spec, Spells.lookup_of_forall_ne hnone] at hk
      exact absurd (Except.ok.inj hk) (by simp)

end Unfolding

end Search

-- ---------------------------------------------------------------------------
-- The history of a list
-- ---------------------------------------------------------------------------

/-- States in the order of the stores between them, each extending those before. -/
structure Growing (kept : Bytes → Prop) (ps : List Charted) : Prop where
  spells : ∀ p ∈ ps, Spells p.1 p.2
  grows : ps.Pairwise (Extends kept)

namespace Growing

variable {kept kept' : Bytes → Prop} {p q : Charted} {ps qs : List Charted}

/-- One state. -/
theorem single (h : Spells p.1 p.2) : Growing kept [p] :=
  ⟨fun _ hq => List.mem_singleton.mp hq ▸ h, List.pairwise_singleton _ _⟩

/-- One state more in front. -/
theorem cons (hp : Spells p.1 p.2) (hpq : Extends kept p q) (h : Growing kept (q :: ps)) :
    Growing kept (p :: q :: ps) := by
  refine ⟨fun r hr => ?_, List.pairwise_cons.mpr ⟨fun r hr => ?_, h.grows⟩⟩
  · rcases List.mem_cons.mp hr with rfl | hr
    · exact hp
    · exact h.spells r hr
  · rcases List.mem_cons.mp hr with rfl | hr
    · exact hpq
    · exact hpq.trans ((List.pairwise_cons.mp h.grows).1 r hr)

/-- More states behind the last one. -/
theorem append (h : Growing kept (p :: ps)) (h' : Growing kept (ps.getLastD p :: qs)) :
    Growing kept (p :: (ps ++ qs)) := by
  induction ps generalizing p with
  | nil => exact h'
  | cons q ps ih =>
    rw [List.getLastD_cons] at h'
    have hrest : Growing kept (q :: ps) :=
      ⟨fun r hr => h.spells r (List.mem_cons_of_mem p hr), (List.pairwise_cons.mp h.grows).2⟩
    exact cons (h.spells p List.mem_cons_self)
      ((List.pairwise_cons.mp h.grows).1 q List.mem_cons_self) (ih hrest h')

/-- Fewer keys are easier to keep. -/
theorem mono (h : Growing kept ps) (hle : ∀ k, kept' k → kept k) : Growing kept' ps :=
  ⟨h.spells, h.grows.imp fun hpq => hpq.mono hle⟩

end Growing

section History

variable {s : SkipList} {t : Chains}

/-- Linking in at one level more loses no node. -/
theorem insertLevel_subset_succ (t : Chains) (l : Link) (n i : Nat) :
    t.insertLevel l n i ⊆ t.insertLevel l (n + 1) i := by
  by_cases hi : i = n
  · subst hi
    rw [t.insertLevel_of_le l le_rfl]
    exact (t.level_sublist_insertLevel l (i + 1) i).subset
  · rw [t.insertLevel_succ_of_ne l hi]
    exact fun _ hz => hz

/-- On level 0 there is the new node and the old ones. -/
theorem mem_insertLevel_zero {l z : Link} {n : Nat} (hz : z ∈ t.insertLevel l n 0) :
    z = l ∨ z ∈ t.level 0 := by
  unfold Tower.insertLevel at hz
  split at hz
  · rw [List.mem_append, List.mem_cons] at hz
    rw [t.level_eq_below l.2 0, List.mem_append]
    tauto
  · exact .inr hz

/-- The stores of an insertion leave the value of every node as it is, the new one's too. -/
theorem Inserting.extends {base s s' : SkipList} {l : Link} {hnew : ∀ z ∈ t.level 0, z.2 ≠ l.2}
    {value : Bytes} {height n m : Nat} (h : Inserting base t l hnew value height n s)
    (h' : Inserting base t l hnew value height m s')
    (hsub : ∀ i, t.insertLevel l n i ⊆ t.insertLevel l m i) (kept : Bytes → Prop) :
    Extends kept (s, t.insert l n hnew) (s', t.insert l m hnew) where
  level := hsub
  shown z hz _ := by
    rcases mem_insertLevel_zero hz with rfl | hz
    · obtain ⟨node, hnode, -, hvalue, -⟩ := h.node
      obtain ⟨node', hnode', -, hvalue', -⟩ := h'.node
      rw [SkipList.shown, SkipList.shown, hnode, hnode', Option.map_some, Option.map_some, hvalue,
        hvalue']
    · rw [h.old z hz, h'.old z hz]

/-- **The loop over the levels**: each store leaves the chains as they are or links the
node in at one level more. By induction on the levels to go. -/
theorem Inserting.link_growing {base : SkipList} {l : Link} {hnew : ∀ z ∈ t.level 0, z.2 ≠ l.2}
    {value : Bytes} {height n : Nat} {prev : List (Option Addr)}
    (h : Inserting base t l hnew value height n s) (hfresh : Fresh t l.1) {k : Nat}
    (hk : n + k = height)
    (hprev : ∀ j < height, prev[j]? = some (some (stop t (Tower.before l.2) j).1))
    (kept : Bytes → Prop) :
    ∃ ps : List Charted, SkipList.link l.1 prev k n s = .ok (ps.map Prod.fst) ∧
      Growing kept ((s, t.insert l n hnew) :: ps) ∧
      ∀ p ∈ ps, ∃ m, p.2 = t.insert l m hnew := by
  induction k generalizing n s with
  | zero => exact ⟨[], rfl, .single h.spells, fun p hp => absurd hp List.not_mem_nil⟩
  | succ k ih =>
    obtain ⟨s₁, s₂, hlink, h₁, h₂⟩ := h.linkLevel hfresh (by omega) (hprev n (by omega))
    obtain ⟨ps, hps, hgrowing, hall⟩ := ih h₂ (by omega)
    refine ⟨(s₁, t.insert l n hnew) :: (s₂, t.insert l (n + 1) hnew) :: ps, ?_, ?_, fun p hp => ?_⟩
    · simp only [SkipList.link, hlink, Except.ok_bind, hps]
      rfl
    · exact .cons h.spells (h.extends h₁ (fun i => List.Subset.refl _) kept)
        (.cons h₁.spells (h₁.extends h₂ (insertLevel_subset_succ t l n) kept) hgrowing)
    · rcases List.mem_cons.mp hp with rfl | hp
      · exact ⟨n, rfl⟩
      rcases List.mem_cons.mp hp with rfl | hp
      · exact ⟨n + 1, rfl⟩
      · exact hall p hp

/-- There is one node more at most. -/
theorem length_insertLevel_le (t : Chains) (l : Link) (n : Nat) :
    (t.insertLevel l n 0).length ≤ (t.level 0).length + 1 := by
  unfold Tower.insertLevel
  split
  · conv_rhs => rw [t.level_eq_below l.2 0]
    simp only [List.length_append, List.length_cons]
    omega
  · exact Nat.le_succ _

/-- The keys of the nodes. -/
def chainKeys (t : Chains) : List Bytes := (t.level 0).map Prod.snd

/-- Its key is the new one. -/
theorem chainKeys_insert_subset (t : Chains) (l : Link) (n : Nat)
    (hnew : ∀ z ∈ t.level 0, z.2 ≠ l.2) : chainKeys (t.insert l n hnew) ⊆ l.2 :: chainKeys t := by
  intro k hk
  obtain ⟨z, hz, rfl⟩ := List.mem_map.mp hk
  rcases mem_insertLevel_zero hz with rfl | hz
  · exact List.mem_cons_self
  · exact List.mem_cons_of_mem _ (List.mem_map_of_mem hz)

/-- **The stores of one insertion.** Only a key that is found does not keep its value. -/
theorem Spells.wordStates_growing (h : Spells s t) (tearing : Tearing) (op : Insertion)
    (kept : Bytes → Prop) (hkept : op.key ∈ chainKeys t → ¬ kept op.key) :
    ∃ ps : List Charted, s.wordStates tearing op = .ok (ps.map Prod.fst) ∧
      Growing kept ((s, t) :: ps) ∧
      ∀ p ∈ ps, (p.2.level 0).length ≤ (t.level 0).length + 1 ∧
        chainKeys p.2 ⊆ op.key :: chainKeys t := by
  obtain ⟨key, value, height⟩ := op
  obtain ⟨prev, hfind, hlen, hprev⟩ := h.findGreaterOrEqual_spec key
  rcases Spells.mem_or_forall_ne t key with ⟨x, hx, rfl⟩ | hnew
  · -- the two words of a value, one after the other
    obtain ⟨l, r, hsplit⟩ := List.append_of_mem hx
    obtain ⟨node, hnode, -⟩ := h.nodeAt hx
    obtain ⟨s₁, hset₁, hspells₁, hother₁, -⟩ := h.setValue hsplit (tearing.view value node.value)
    obtain ⟨s₂, hset₂, hspells₂, hother₂, -⟩ := hspells₁.setValue hsplit value
    have hne : ∀ z : Link, kept z.2 → z.2 ≠ x.2 := fun z hz heq =>
      hkept (List.mem_map_of_mem hx) (heq ▸ hz)
    have hextends : ∀ {a b : SkipList}, (∀ z ∈ t.level 0, z.2 ≠ x.2 → b.shown z = a.shown z) →
        Extends kept (a, t) (b, t) := fun hother =>
      ⟨fun i => List.Subset.refl _, fun z hz hk => hother z hz (hne z hk)⟩
    refine ⟨[(s₁, t), (s₂, t)], ?_, .cons h (hextends hother₁)
      (.cons hspells₁ (hextends hother₂) (.single hspells₂)), fun p hp => ?_⟩
    · rw [wordStates, hfind, Except.ok_bind]
      simp only [h.holding_of_mem hx, hnode, hset₁, hset₂, Except.ok_bind]
      rfl
    · have hp : p.2 = t := by
        rcases List.mem_cons.mp hp with rfl | hp
        · rfl
        · rw [List.mem_singleton.mp hp]
      rw [hp]
      exact ⟨Nat.le_succ _, List.subset_cons_self _ _⟩
  · -- a node linked in
    set s₁ : SkipList := { s with maxHeight := max s.maxHeight height } with hs₁
    set s₂ : SkipList := s₁.newNode key value height with hs₂
    have hraise : Spells s₁ t := h.raise height
    have hold : ∀ z ∈ t.level 0, z.1 < s.nodes.length := fun z hz => by
      obtain ⟨-, n, hn, -⟩ := h.node z hz
      exact (List.getElem?_eq_some_iff.mp hn).1
    have hfresh : Fresh t s.nodes.length :=
      ⟨(Nat.zero_lt_of_lt (h.length_lt 0)).ne', fun z hz => (hold z hz).ne⟩
    have hshown : ∀ z ∈ t.level 0, s₂.shown z = s.shown z := fun z hz => by
      rw [shown, shown, hs₂, SkipList.newNode, List.getElem?_append_left (hold z hz)]
    have h₂ : Inserting s t (s.nodes.length, key) hnew value height 0 s₂ := by
      refine ⟨?_, ⟨_, List.getElem?_concat_length, rfl, rfl, List.length_replicate⟩, hshown,
        le_max_right _ _⟩
      rw [Tower.insert_zero]
      exact hraise.newNode key value height
    obtain ⟨ps, hps, hgrowing, hall⟩ := h₂.link_growing hfresh (Nat.zero_add height.val)
      (fillHead_spec h hlen hprev) kept
    rw [Tower.insert_zero] at hgrowing
    refine ⟨(s₁, t) :: (s₂, t) :: ps, ?_, ?_, fun p hp => ?_⟩
    · rw [wordStates, hfind, Except.ok_bind]
      simp only [h.holding_of_forall_ne hnew, Except.ok_bind]
      rw [insertStates, hfind, Except.ok_bind]
      simp only [h.holding_of_forall_ne hnew, Except.ok_bind]
      rw [hps]
      rfl
    · have hraised : Extends kept (s, t) (s₁, t) :=
        ⟨fun i => List.Subset.refl _, fun z _ _ => rfl⟩
      have hadded : Extends kept (s₁, t) (s₂, t) :=
        ⟨fun i => List.Subset.refl _, fun z hz _ => hshown z hz⟩
      exact .cons h hraised (.cons hraise hadded hgrowing)
    · rcases List.mem_cons.mp hp with rfl | hp
      · exact ⟨Nat.le_succ _, List.subset_cons_self _ _⟩
      rcases List.mem_cons.mp hp with rfl | hp
      · exact ⟨Nat.le_succ _, List.subset_cons_self _ _⟩
      · obtain ⟨m, hm⟩ := hall p hp
        rw [hm]
        exact ⟨length_insertLevel_le t _ m, chainKeys_insert_subset t (s.nodes.length, key) m hnew⟩

/-- The last state of a list with chains. -/
theorem getLastD_map_fst (p : Charted) (ps : List Charted) :
    (ps.map Prod.fst).getLastD p.1 = (ps.getLastD p).1 := by
  induction ps generalizing p with
  | nil => rfl
  | cons q ps ih => rw [List.map_cons, List.getLastD_cons, List.getLastD_cons, ih]

/-- It is one of them. -/
theorem getLastD_mem (p : Charted) (ps : List Charted) : ps.getLastD p ∈ p :: ps := by
  induction ps generalizing p with
  | nil => exact List.mem_cons_self
  | cons q ps ih =>
    rw [List.getLastD_cons]
    exact List.mem_cons_of_mem p (ih q)

/-- **All insertions**: the states with their chains, by induction on the insertions. Keys
that none of them finds keep their values. -/
theorem Spells.insertionStates_growing (h : Spells s t) (tearing : Tearing) {known : List Bytes}
    (hknown : chainKeys t ⊆ known) (ops : List Insertion) :
    ∃ ps : List Charted, s.insertionStates tearing ops = .ok (ps.map Prod.fst) ∧
      Growing (fun k => ¬ Overwritten k known ops) ((s, t) :: ps) ∧
      ∀ p ∈ ps, (p.2.level 0).length ≤ (t.level 0).length + ops.length ∧
        chainKeys p.2 ⊆ (ops.map Insertion.key).reverse ++ known := by
  -- an insertion may overwrite what is known before it, and makes its key known to those
  -- behind
  induction ops generalizing s t known with
  | nil => exact ⟨[], rfl, .single h, fun p hp => absurd hp List.not_mem_nil⟩
  | cons op ops ih =>
    obtain ⟨ps, hps, hgrowing, hlen⟩ := h.wordStates_growing tearing op
      (fun k => ¬ Overwritten k known (op :: ops))
      fun hmem hkept => hkept (.inl ⟨rfl, hknown hmem⟩)
    set last := ps.getLastD (s, t) with hlast
    have hmem : last ∈ (s, t) :: ps := getLastD_mem (s, t) ps
    have hsub : ∀ p ∈ (s, t) :: ps, (p.2.level 0).length ≤ (t.level 0).length + 1 ∧
        chainKeys p.2 ⊆ op.key :: known := by
      refine List.forall_mem_cons.mpr ⟨⟨Nat.le_succ _, ?_⟩, fun p hp => ⟨(hlen p hp).1, ?_⟩⟩
      · exact List.Subset.trans hknown (List.subset_cons_self _ _)
      · exact List.Subset.trans (hlen p hp).2 (List.cons_subset_cons _ hknown)
    obtain ⟨qs, hqs, hgrowing', hlen'⟩ := ih (hgrowing.spells last hmem) (hsub last hmem).2
    refine ⟨ps ++ qs, ?_, hgrowing.append (hgrowing'.mono fun k hk h' => hk (.inr h')),
      fun p hp => ?_⟩
    · rw [insertionStates, hps, Except.ok_bind, getLastD_map_fst (s, t), ← hlast, hqs,
        List.map_append]
      rfl
    · rw [List.length_cons, List.map_cons, List.reverse_cons, List.append_assoc]
      rcases List.mem_append.mp hp with hp | hp
      · have := (hsub p (List.mem_cons_of_mem _ hp)).1
        exact ⟨by omega, List.Subset.trans (hsub p (List.mem_cons_of_mem _ hp)).2
          (List.subset_append_right _ _)⟩
      · have := (hlen' p hp).1
        have := (hsub last hmem).1
        exact ⟨by omega, (hlen' p hp).2⟩

/-- **What a reader finds unfolds**, when it finds states of a growing list. -/
theorem Growing.unfolding {kept : Bytes → Prop} {p : Charted} {ps : List Charted}
    (h : Growing kept (p :: ps)) {sees : Nat → SkipList}
    (hsees : Glimpses ((p :: ps).map Prod.fst) sees) :
    ∃ towers, ∃ q ∈ p :: ps, Unfolding kept sees towers (q.2.level 0) := by
  obtain ⟨moment, hmono, hsees⟩ := hsees
  have hpair : ∀ n, ∃ q, (p :: ps)[moment n]? = some q ∧ q.1 = sees n := fun n => by
    have hn := hsees n
    rw [List.getElem?_map] at hn
    exact Option.map_eq_some_iff.mp hn
  choose pair hat hstate using hpair
  -- two moments: the same state, or a later one
  have hlater : ∀ (q r : Charted) (a b : Nat), (p :: ps)[a]? = some q →
      (p :: ps)[b]? = some r → a ≤ b → Extends kept q r := by
    intro q r a b hq hr hab
    rcases hab.eq_or_lt with rfl | hlt
    · rw [Option.some.inj (hq.symm.trans hr)]
      exact .refl kept r
    · obtain ⟨ha, rfl⟩ := List.getElem?_eq_some_iff.mp hq
      obtain ⟨hb, rfl⟩ := List.getElem?_eq_some_iff.mp hr
      exact List.pairwise_iff_getElem.mp h.grows a b ha hb hlt
  have hend : (p :: ps)[ps.length]? = some ((p :: ps)[ps.length]) :=
    List.getElem?_eq_getElem (Nat.lt_succ_self _)
  have hlt : ∀ n, moment n ≤ ps.length := fun n =>
    Nat.le_of_lt_succ (List.getElem?_eq_some_iff.mp (hat n)).1
  have heq : ∀ n, (sees n, (pair n).2) = pair n := fun n => Prod.ext (hstate n).symm rfl
  refine ⟨fun n => (pair n).2, _, List.mem_of_getElem? hend,
    fun n => hstate n ▸ h.spells _ (List.mem_of_getElem? (hat n)), fun n => ?_,
    fun n => (hlater _ _ _ _ (hat n) hend (hlt n)).level 0⟩
  rw [heq n, heq (n + 1)]
  exact hlater _ _ _ _ (hat n) (hat (n + 1)) (hmono (Nat.le_succ n))

/-- **A reader that begins behind some insertions and is overtaken by others.** -/
theorem exists_unfolding {tearing : Tearing} {before during : List Insertion}
    {past later : List SkipList} (hpast : history tearing before = .ok past)
    (hduring : (past.getLastD new).insertionStates tearing during = .ok later) :
    (∀ s ∈ past ++ later, 1 ≤ s.maxHeight ∧ s.maxHeight ≤ kMaxHeight) ∧
      ∀ sees, Glimpses (past.getLastD new :: later) sees → ∃ towers final,
        final.length ≤ before.length + during.length ∧
        Unfolding (fun k => ¬ Overwritten k (before.map Insertion.key) during) sees towers
          final := by
  -- the insertions before the reader starts
  obtain ⟨ps, hps, hgrowing, hbounds⟩ :=
    spells_new.insertionStates_growing tearing (List.nil_subset []) before
  set first : Charted := (new, _) with hfirst
  have hpast' : past = (first :: ps).map Prod.fst := by
    rw [history, hps] at hpast
    exact (Except.ok.inj hpast).symm
  set last := ps.getLastD first with hlast
  have hnow : past.getLastD new = last.1 := by
    rw [hpast', List.map_cons, List.getLastD_cons, getLastD_map_fst first]
  have hmem : last ∈ first :: ps := getLastD_mem first ps
  have hspells := hgrowing.spells last hmem
  have hlastBounds : (last.2.level 0).length ≤ before.length ∧
      chainKeys last.2 ⊆ before.map Insertion.key := by
    rcases List.mem_cons.mp hmem with heq | hmem
    · rw [heq]
      exact ⟨Nat.zero_le _, List.nil_subset _⟩
    · obtain ⟨hlen, hkeys⟩ := hbounds last hmem
      refine ⟨hlen.trans (Nat.zero_add _).le, fun k hk => ?_⟩
      have hk' := hkeys hk
      rwa [List.append_nil, List.mem_reverse] at hk'
  -- those that run while it reads go on from the last state
  obtain ⟨qs, hqs, hgrowing', hbounds'⟩ :=
    hspells.insertionStates_growing tearing hlastBounds.2 during
  rw [hnow] at hduring ⊢
  obtain rfl : later = qs.map Prod.fst := Except.ok.inj (hduring.symm.trans hqs)
  refine ⟨fun s hs => ?_, fun sees hsees => ?_⟩
  · have hstate : ∃ p : Charted, Spells p.1 p.2 ∧ p.1 = s := by
      rcases List.mem_append.mp hs with hs | hs
      · rw [hpast'] at hs
        obtain ⟨p, hp, heq⟩ := List.mem_map.mp hs
        exact ⟨p, hgrowing.spells p hp, heq⟩
      · obtain ⟨p, hp, heq⟩ := List.mem_map.mp hs
        exact ⟨p, hgrowing'.spells p (List.mem_cons_of_mem _ hp), heq⟩
    obtain ⟨p, hp, rfl⟩ := hstate
    exact ⟨hp.one_le, hp.le_max⟩
  · obtain ⟨towers, q, hq, hunfolding⟩ := hgrowing'.unfolding hsees
    refine ⟨towers, q.2.level 0, ?_, hunfolding⟩
    have hlen := hlastBounds.1
    rcases List.mem_cons.mp hq with rfl | hq
    · exact hlen.trans (Nat.le_add_right _ _)
    · have := (hbounds' q hq).1
      omega

end History

-- ---------------------------------------------------------------------------
-- Reads beside insertions
-- ---------------------------------------------------------------------------

/-- The stores of any insertions succeed. -/
theorem history_ok (tearing : Tearing) (before during : List Insertion) :
    ∃ past later, history tearing before = .ok past ∧
      (past.getLastD new).insertionStates tearing during = .ok later := by
  obtain ⟨ps, hps, hgrowing, -⟩ :=
    spells_new.insertionStates_growing tearing (List.nil_subset []) before
  obtain ⟨qs, hqs, -⟩ := (hgrowing.spells _ (getLastD_mem _ ps)).insertionStates_growing tearing
    (List.Subset.refl _) during
  refine ⟨new :: ps.map Prod.fst, qs.map Prod.fst, by rw [history, hps]; rfl, ?_⟩
  rw [List.getLastD_cons]
  exact (congrArg (fun s => insertionStates tearing s during) (getLastD_map_fst _ ps)).trans hqs

/-- Two keys that are there when the reader begins. -/
def filled : List Insertion :=
  [⟨[1], [7], randomHeight [1]⟩, ⟨[3], [8, 8], randomHeight [0, 1]⟩]

/-- One key more, and another value for the first. -/
def filling : List Insertion :=
  [⟨[2], [6], randomHeight [1]⟩, ⟨[1], [9, 9], randomHeight [1]⟩]

/-- A view with the pointer of one value and the size of another, if zeros follow the values. -/
def zeroTearing : Tearing where
  view v w := (v ++ List.replicate w.length 0).take w.length
  view_self v := by rw [List.take_left]

/-- The states, if the stores succeed. -/
def statesOf (states : Except Fault (List SkipList)) : List SkipList :=
  match states with
  | .ok states => states
  | .error _ => []

/-- The states of the first insertions, -/
def filledStates : List SkipList := statesOf (history zeroTearing filled)

/-- and those of the others. -/
def fillingStates : List SkipList :=
  statesOf ((filledStates.getLastD new).insertionStates zeroTearing filling)

/-- A reader that begins when the new key is there and is overtaken by the two stores that
overwrite the first. -/
def overtaken (n : Nat) : SkipList :=
  ((filledStates.getLastD new :: fillingStates)[min (n + 4) 6]?).getD new

/-- It sees states of the history, in order. -/
theorem glimpses_overtaken :
    Glimpses (filledStates.getLastD new :: fillingStates) overtaken := by
  have hall : ∀ i < 7, (filledStates.getLastD new :: fillingStates)[i]? =
      some (((filledStates.getLastD new :: fillingStates)[i]?).getD new) := by decide +kernel
  refine ⟨fun n => min (n + 4) 6, fun a b hab => ?_, fun n => hall (min (n + 4) 6) (by omega)⟩
  exact min_le_min_right 6 (Nat.add_le_add_right hab 4)

/-- **`Get` beside a writer**: whatever insertions go on between its loads, it ends, with a
load for each node and each level and two for the value at most, and finds the key if and
only if it was there at one moment between its first and its last load. It returns the value
of that moment, unless an insertion finds the key meanwhile and overwrites it.

Hypotheses:
* `hpast` — `before` are the insertions that were over when the reader began, and `past`
  their states;
* `hduring` — `during` are those that go on beside it, and `later` their states;
* `hsees` — each load of the reader finds one of these states, and none that is older than
  the one before: the release order of the stores;
* `hlisted` — the height is any that the list ever had, since it is loaded relaxed.

No insertion fails, so there are such states whatever is inserted (`history_ok`). -/
theorem get_beside_inserts (tearing : Tearing) (before during : List Insertion)
    (past later : List SkipList) (hpast : history tearing before = .ok past)
    (hduring : (past.getLastD new).insertionStates tearing during = .ok later)
    (sees : Nat → SkipList) (hsees : Glimpses (past.getLastD new :: later) sees)
    (listed : SkipList) (hlisted : listed ∈ past ++ later) (key : Bytes) :
    ∃ n v, getAcross tearing sees listed.maxHeight
        (kMaxHeight + (before.length + during.length)) key = .ok (n, v) ∧
      n ≤ kMaxHeight + (before.length + during.length) + 2 ∧
      ∃ m < n, ∃ w, (sees m).get key = .ok w ∧ w.isSome = v.isSome ∧
        (¬ Overwritten key (before.map Insertion.key) during → w = v) := by
  obtain ⟨hheight, hunfolds⟩ := exists_unfolding hpast hduring
  obtain ⟨towers, final, hfinal, hunfolding⟩ := hunfolds sees hsees
  obtain ⟨hone, hmax⟩ := hheight listed hlisted
  exact hunfolding.getAcross_spec hone hmax (by omega) key

/-- A new key, beside one that is overwritten. -/
theorem get_beside_filling :
    ¬ Overwritten [2] (filled.map Insertion.key) filling ∧
      Overwritten [1] (filled.map Insertion.key) filling ∧
      ∃ n v, getAcross zeroTearing overtaken new.maxHeight
          (kMaxHeight + (filled.length + filling.length)) [2] = .ok (n, v) ∧
        n ≤ kMaxHeight + (filled.length + filling.length) + 2 ∧
        ∃ m < n, ∃ w, (overtaken m).get [2] = .ok w ∧ w.isSome = v.isSome ∧
          (¬ Overwritten [2] (filled.map Insertion.key) filling → w = v) :=
  ⟨by decide, by decide, get_beside_inserts zeroTearing filled filling filledStates fillingStates
    rfl rfl overtaken glimpses_overtaken new (by decide) [2]⟩

/-- The reader of the key that is overwritten gets a value that it never had. -/
example : getAcross zeroTearing overtaken 1 16 [1] = .ok (3, some [9, 0]) := by decide +kernel

/-- **`MemTable::scan` beside a writer**: it ends, its rows ascend and are in range, each of
a key that was there at one moment of the scan, with its value of that moment unless an
insertion finds the key meanwhile, and every key in range that was there at the first load
is among them.

The insertions and their states (`hpast`, `hduring`), what the reader sees of them (`hsees`)
and the height that it loads (`hlisted`) are given as in `get_beside_inserts`. -/
theorem scan_beside_inserts (tearing : Tearing) (before during : List Insertion)
    (past later : List SkipList) (hpast : history tearing before = .ok past)
    (hduring : (past.getLastD new).insertionStates tearing during = .ok later)
    (sees : Nat → SkipList) (hsees : Glimpses (past.getLastD new :: later) sees)
    (listed : SkipList) (hlisted : listed ∈ past ++ later) (start stop : Bytes) :
    ∃ n rows, scanAcross tearing sees listed.maxHeight
        (kMaxHeight + (before.length + during.length)) start stop = .ok (n, rows) ∧
      (rows.Pairwise fun a b => a.1 < b.1) ∧
      (∀ e ∈ rows, start ≤ e.1 ∧ e.1 ≤ stop ∧
        ∃ m < n, ∃ w, (sees m).get e.1 = .ok (some w) ∧
          (¬ Overwritten e.1 (before.map Insertion.key) during → w = e.2)) ∧
      ∀ k v, start ≤ k → k ≤ stop → (sees 0).get k = .ok (some v) → ∃ w, (k, w) ∈ rows := by
  obtain ⟨hheight, hunfolds⟩ := exists_unfolding hpast hduring
  obtain ⟨towers, final, hfinal, hunfolding⟩ := hunfolds sees hsees
  obtain ⟨hone, hmax⟩ := hheight listed hlisted
  exact hunfolding.scanAcross_spec hone hmax (by omega) start stop

/-- A scan over the new key and the one that is overwritten. -/
theorem scan_beside_filling :
    ∃ n rows, scanAcross zeroTearing overtaken new.maxHeight
        (kMaxHeight + (filled.length + filling.length)) [] [2] = .ok (n, rows) ∧
      (rows.Pairwise fun a b => a.1 < b.1) ∧
      (∀ e ∈ rows, [] ≤ e.1 ∧ e.1 ≤ [2] ∧
        ∃ m < n, ∃ w, (overtaken m).get e.1 = .ok (some w) ∧
          (¬ Overwritten e.1 (filled.map Insertion.key) filling → w = e.2)) ∧
      ∀ k v, [] ≤ k → k ≤ [2] → (overtaken 0).get k = .ok (some v) → ∃ w, (k, w) ∈ rows :=
  scan_beside_inserts zeroTearing filled filling filledStates fillingStates rfl rfl overtaken
    glimpses_overtaken new (by decide) [] [2]

end Zenith.SkipList
