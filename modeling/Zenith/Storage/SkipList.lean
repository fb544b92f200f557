import Zenith.Lib.Bytes
import Zenith.Lib.Tower

/-!
# Zenith — the skip list

The skip list of `skiplist.h`, with its nodes in a heap: an address is an index into the
nodes in the order of their allocation, the head comes first. A node has one pointer for
each level below its height, and a pointer has a value from the first `SetNext` on. Reading
a pointer that has none, or one above the node's height, is a fault.

The three searches are one loop that goes right or down (`search`), with the test that sends
it right. A loop that is still running at its bound is a fault too, so that a search with a
result has ended on its own.

What the pointers are for is said by a tower, which is a list of chains, each a sublist of
the one below and the lowest in ascending order of keys. `Spells s t` says that the pointers
of `s` spell the chains of the tower `t`: at each level, from the head on, every pointer
leads to the next node of its chain, and levels above the height of the list are empty.
Everything a reader does is stated by means of `t`, and the heap is not looked at again.

A search is right because what it passes on one level it would pass on the level below as
well; this is what makes going down without going back sound. Its test is `Downward`: a key
that passes lets all smaller ones pass.

The model keeps each key and value in its node. Where their bytes are in memory is the
arena's business.

Main results: `search_spec` (where a search stops, at each level), and from it what the
readers see: `get_spec`, `forward_spec`, `backward_spec`.
-/

namespace Zenith

/-- The address of a node. -/
abbrev Addr := Nat

/-- A node. A pointer is null or an address, once it has a value. -/
structure SkipList.Node where
  key : Bytes
  value : Bytes
  next : List (Option (Option Addr))
  deriving DecidableEq

/-- The nodes in the order of their allocation, and `max_height_`. -/
structure SkipList where
  nodes : List SkipList.Node
  maxHeight : Nat
  deriving DecidableEq

namespace SkipList

/-- The height of the head, above which no node goes. -/
def kMaxHeight : Nat := 12

/-- The head is allocated first. -/
def head : Addr := 0

/-- The constructor: a head with null pointers at every level. -/
def new : SkipList := ⟨[⟨[], [], List.replicate kMaxHeight (some none)⟩], 1⟩

/-- The node at an address. -/
def nodeAt (s : SkipList) (x : Addr) : Except Fault Node :=
  match s.nodes[x]? with
  | some n => .ok n
  | none => .error .outOfBounds

/-- `Node::Next`. -/
def next (s : SkipList) (x : Addr) (i : Nat) : Except Fault (Option Addr) := do
  let n ← s.nodeAt x
  match n.next[i]? with
  | some (some y) => .ok y
  | _ => .error .outOfBounds

/-- `Node::SetNext`. -/
def setNext (s : SkipList) (x : Addr) (i : Nat) (y : Option Addr) : Except Fault SkipList := do
  let n ← s.nodeAt x
  if i < n.next.length then
    .ok { s with nodes := s.nodes.set x { n with next := n.next.set i (some y) } }
  else .error .outOfBounds

-- ---------------------------------------------------------------------------
-- Searches
-- ---------------------------------------------------------------------------

/-- Whether a search moves on to the next node, by the test on its key. -/
def passes (s : SkipList) (test : Bytes → Bool) : Option Addr → Except Fault Bool
  | none => .ok false
  | some y => (s.nodeAt y).map fun n => test n.key

/-- The loop of the searches, started at `x` and `level`: the node it stops at,
its successor, and the node at which each level was left. -/
def search (s : SkipList) (test : Bytes → Bool) :
    Nat → Addr → Nat → List (Option Addr) →
      Except Fault (Addr × Option Addr × List (Option Addr))
  | 0, _, _, _ => .error (.thrown "still searching")
  | bound + 1, x, level, prev => do
    let next ← s.next x level
    match next, ← s.passes test next with
    | some y, true => s.search test bound y level prev
    | _, _ =>
      match level with
      | 0 => .ok (x, next, prev.set 0 (some x))
      | l + 1 => s.search test bound x l (prev.set (l + 1) (some x))

/-- No search looks at a node twice on one level. -/
def searchBound (s : SkipList) : Nat := s.maxHeight * s.nodes.length

/-- A search from the head, with the array `prev` not yet filled in. -/
def searchFromHead (s : SkipList) (test : Bytes → Bool) :
    Except Fault (Addr × Option Addr × List (Option Addr)) :=
  s.search test s.searchBound head (s.maxHeight - 1) (List.replicate kMaxHeight none)

/-- `KeyIsAfterNode`, for a node that is there. -/
def keyIsAfterNode (key : Bytes) (nodeKey : Bytes) : Bool := decide (nodeKey < key)

/-- `FindGreaterOrEqual`: the node found, and `prev`. -/
def findGreaterOrEqual (s : SkipList) (key : Bytes) :
    Except Fault (Option Addr × List (Option Addr)) :=
  (s.searchFromHead (keyIsAfterNode key)).map Prod.snd

/-- Stops where the next key is `>= key`. -/
def findLessThan (s : SkipList) (key : Bytes) : Except Fault Addr :=
  (s.searchFromHead fun nodeKey => !decide (nodeKey ≥ key)).map Prod.fst

/-- Stops at the end of a chain only. -/
def findLast (s : SkipList) : Except Fault Addr :=
  (s.searchFromHead fun _ => true).map Prod.fst

/-- The test `x != nullptr && x->key == key`. -/
def holding (s : SkipList) (key : Bytes) : Option Addr → Except Fault (Option Addr)
  | none => .ok none
  | some x => (s.nodeAt x).map fun n => if n.key = key then some x else none

/-- `Contains` -/
def contains (s : SkipList) (key : Bytes) : Except Fault Bool := do
  let (x, _) ← s.findGreaterOrEqual key
  return (← s.holding key x).isSome

/-- `Get` -/
def get (s : SkipList) (key : Bytes) : Except Fault (Option Bytes) := do
  let (x, _) ← s.findGreaterOrEqual key
  match ← s.holding key x with
  | some x => (s.nodeAt x).map fun n => some n.value
  | none => .ok none

-- ---------------------------------------------------------------------------
-- Iterators
-- ---------------------------------------------------------------------------

/-- The position of an iterator; `Valid` means that there is one. -/
abbrev Position := Option Addr

/-- `Iterator::Seek` -/
def seek (s : SkipList) (target : Bytes) : Except Fault Position :=
  (s.findGreaterOrEqual target).map Prod.fst

/-- `Iterator::SeekToFirst` -/
def seekToFirst (s : SkipList) : Except Fault Position := s.next head 0

/-- A node found by a backward search; the head is not a position. -/
def notHead (x : Addr) : Position := if x = head then none else some x

/-- `Iterator::SeekToLast` -/
def seekToLast (s : SkipList) : Except Fault Position := s.findLast.map notHead

/-- `Iterator::Next`, at a valid position. -/
def iterNext (s : SkipList) (x : Addr) : Except Fault Position := s.next x 0

/-- `Iterator::Prev`, at a valid position. -/
def iterPrev (s : SkipList) (x : Addr) : Except Fault Position := do
  let n ← s.nodeAt x
  return notHead (← s.findLessThan n.key)

/-- The loop `while (iter.Valid()) { ..; move; }`: the nodes visited, in order. -/
def visit (s : SkipList) (move : Addr → Except Fault Position) :
    Nat → Position → Except Fault (List (Addr × Bytes × Bytes))
  | _, none => .ok []
  | 0, some _ => .error (.thrown "still iterating")
  | bound + 1, some x => do
    let n ← s.nodeAt x
    return (x, n.key, n.value) :: (← s.visit move bound (← move x))

/-- `Next` until the position is invalid. -/
def forward (s : SkipList) (pos : Position) : Except Fault (List (Addr × Bytes × Bytes)) :=
  s.visit s.iterNext s.nodes.length pos

/-- `Prev` until the position is invalid. -/
def backward (s : SkipList) (pos : Position) : Except Fault (List (Addr × Bytes × Bytes)) :=
  s.visit s.iterPrev s.nodes.length pos

/-- The chain of one level, read off its pointers. -/
def levelChain (s : SkipList) (i : Nat) : Except Fault (List (Addr × Bytes × Bytes)) := do
  s.visit (fun x => s.next x i) s.nodes.length (← s.next head i)

/-- The positions that an iterator can be at. -/
inductive Positioned (s : SkipList) : Addr → Prop
  | seek {target x} : s.seek target = .ok (some x) → Positioned s x
  | first {x} : s.seekToFirst = .ok (some x) → Positioned s x
  | last {x} : s.seekToLast = .ok (some x) → Positioned s x
  | next {x y} : Positioned s x → s.iterNext x = .ok (some y) → Positioned s y
  | prev {x y} : Positioned s x → s.iterPrev x = .ok (some y) → Positioned s y

-- ---------------------------------------------------------------------------
-- The chains that the pointers spell
-- ---------------------------------------------------------------------------

/-- A node in a chain, with its key. -/
abbrev Link := Addr × Bytes

/-- The chains of all levels. -/
abbrev Chains := Tower Link Prod.snd

/-- The head, in front of every chain. -/
def headLink : Link := (head, [])

/-- The pointers of the skip list spell the chains of the tower. -/
structure Spells (s : SkipList) (t : Chains) : Prop where
  one_le : 1 ≤ s.maxHeight
  le_max : s.maxHeight ≤ kMaxHeight
  node : ∀ x ∈ t.level 0, x.1 ≠ head ∧ ∃ n, s.nodes[x.1]? = some n ∧ n.key = x.2
  next : ∀ i < kMaxHeight, ∀ l x r, headLink :: t.level i = l ++ x :: r →
    s.next x.1 i = .ok (r.head?.map Prod.fst)
  top : ∀ i, s.maxHeight ≤ i → t.level i = []

/-- A node is there if the heap has it. -/
theorem nodeAt_eq_ok_iff {s : SkipList} {x : Addr} {n : Node} :
    s.nodeAt x = .ok n ↔ s.nodes[x]? = some n := by
  unfold nodeAt
  cases s.nodes[x]? <;> simp

/-- A pointer is read at an address of the heap. -/
theorem lt_length_of_next {s : SkipList} {x : Addr} {i : Nat} {y : Option Addr}
    (h : s.next x i = .ok y) : x < s.nodes.length := by
  obtain ⟨n, hn, -⟩ := Except.bind_eq_ok_iff.mp h
  exact (List.getElem?_eq_some_iff.mp (nodeAt_eq_ok_iff.mp hn)).1

namespace Spells

variable {s : SkipList} {t : Chains} {test : Bytes → Bool}

/-- A node of a chain is there. -/
theorem nodeAt (h : Spells s t) {i : Nat} {x : Link} (hx : x ∈ t.level i) :
    ∃ n, s.nodeAt x.1 = .ok n ∧ n.key = x.2 := by
  obtain ⟨-, n, hn, hkey⟩ := h.node x (t.mem_zero hx)
  exact ⟨n, nodeAt_eq_ok_iff.mpr hn, hkey⟩

/-- Addresses are distinct: a node has one key, and a key one node. -/
theorem nodup (h : Spells s t) (i : Nat) : ((headLink :: t.level i).map Prod.fst).Nodup := by
  refine List.nodup_cons.mpr ⟨fun hmem => ?_, ?_⟩
  · obtain ⟨x, hx, hx0⟩ := List.mem_map.mp hmem
    exact (h.node x (t.mem_zero hx)).1 hx0
  · refine List.Nodup.map_on (fun x hx y hy hxy => ?_) ((t.asc_level i).imp fun hab => ?_)
    · obtain ⟨-, n, hn, hxkey⟩ := h.node x (t.mem_zero hx)
      obtain ⟨-, m, hm, hykey⟩ := h.node y (t.mem_zero hy)
      rw [hxy, hm] at hn
      obtain rfl := Option.some.inj hn
      exact Prod.ext hxy (hxkey.symm.trans hykey)
    · rintro rfl
      exact lt_irrefl _ hab

/-- A chain is shorter than the heap. -/
theorem length_lt (h : Spells s t) (i : Nat) : (t.level i).length < s.nodes.length := by
  have hhead : head < s.nodes.length :=
    lt_length_of_next (h.next 0 (by decide) [] headLink (t.level 0) rfl)
  have hsub : (headLink :: t.level i).map Prod.fst ⊆ List.range s.nodes.length := by
    intro a ha
    rw [List.mem_range]
    obtain ⟨x, hx, rfl⟩ := List.mem_map.mp ha
    rcases List.mem_cons.mp hx with rfl | hx
    · exact hhead
    · obtain ⟨-, n, hn, -⟩ := h.node x (t.mem_zero hx)
      exact (List.getElem?_eq_some_iff.mp hn).1
  have hle := (List.subperm_of_subset (h.nodup i) hsub).length_le
  rw [List.length_map, List.length_cons, List.length_range] at hle
  omega

end Spells

-- ---------------------------------------------------------------------------
-- Where a search stops
-- ---------------------------------------------------------------------------

section Search

variable {s : SkipList} {t : Chains} {test : Bytes → Bool} {x : Addr} {o : Option Addr}
  {prev : List (Option Addr)}

/-- A turn of the loop to the right, -/
theorem search_right {y : Addr} {i : Nat} (hnext : s.next x i = .ok (some y))
    (hpass : s.passes test (some y) = .ok true) (bound : Nat) :
    s.search test (bound + 1) x i prev = s.search test bound y i prev := by
  rw [search, hnext, Except.ok_bind, hpass]
  rfl

/-- one that goes down, -/
theorem search_down {i : Nat} (hnext : s.next x (i + 1) = .ok o)
    (hpass : s.passes test o = .ok false) (bound : Nat) :
    s.search test (bound + 1) x (i + 1) prev =
      s.search test bound x i (prev.set (i + 1) (some x)) := by
  rw [search, hnext, Except.ok_bind, hpass]
  cases o <;> rfl

/-- and the last one. -/
theorem search_stop (hnext : s.next x 0 = .ok o) (hpass : s.passes test o = .ok false)
    (bound : Nat) :
    s.search test (bound + 1) x 0 prev = .ok (x, o, prev.set 0 (some x)) := by
  rw [search, hnext, Except.ok_bind, hpass]
  cases o <;> rfl

/-- The node at which a search leaves a level: the last one it passes. -/
def stop (t : Chains) (test : Bytes → Bool) (i : Nat) : Link :=
  (t.passed test i).getLastD headLink

/-- The node in front of which it does. -/
def ahead (t : Chains) (test : Bytes → Bool) (i : Nat) : Option Addr :=
  (t.rest test i).head?.map Prod.fst

/-- It is the head or a node that is passed. -/
theorem stop_mem (t : Chains) (test : Bytes → Bool) (i : Nat) :
    stop t test i ∈ headLink :: t.passed test i := by
  unfold stop
  cases hlast : (t.passed test i).getLast? with
  | none => simp [List.getLastD_eq_getLast?, hlast]
  | some y =>
    rw [List.getLastD_eq_getLast?, hlast]
    exact List.mem_cons_of_mem _ (List.mem_of_getLast? hlast)

namespace Spells

/-- The test is on the key of the node. -/
theorem passes_link (h : Spells s t) {i : Nat} {y : Link} (hy : y ∈ t.level i) :
    s.passes test (some y.1) = .ok (test y.2) := by
  obtain ⟨n, hn, hkey⟩ := h.nodeAt hy
  show (s.nodeAt y.1).map _ = _
  rw [hn, ← hkey]
  rfl

/-- Nothing is passed at the end of what is to pass. -/
theorem passes_ahead (h : Spells s t) (test : Bytes → Bool) (i : Nat) :
    s.passes test (ahead t test i) = .ok false := by
  unfold ahead
  cases hrest : t.rest test i with
  | nil => rfl
  | cons y r =>
    obtain ⟨hy, htest⟩ := Tower.of_mem_rest (hrest ▸ List.mem_cons_self : y ∈ t.rest test i)
    exact (h.passes_link hy).trans (congrArg Except.ok htest)

/-- The pointer behind a node that is passed. -/
theorem next_passed (h : Spells s t) (hp : Tower.Downward test) {i : Nat} (hi : i < kMaxHeight)
    {l after : List Link} {x : Link} (hsplit : headLink :: t.passed test i = l ++ x :: after) :
    s.next x.1 i = .ok ((after ++ t.rest test i).head?.map Prod.fst) := by
  refine h.next i hi l x _ ?_
  rw [t.level_eq hp i, ← List.cons_append, hsplit, List.append_assoc, List.cons_append]

/-- Behind the node at which a level is left. -/
theorem next_stop (h : Spells s t) (hp : Tower.Downward test) {i : Nat} (hi : i < kMaxHeight) :
    s.next (stop t test i).1 i = .ok (ahead t test i) := by
  have hlast : headLink :: t.passed test i =
      (headLink :: t.passed test i).dropLast ++ [stop t test i] := by
    rw [stop, ← List.getLast_eq_getLastD (List.cons_ne_nil _ _), List.dropLast_append_getLast]
  exact h.next_passed hp hi hlast

/-- **One level of a search.** By induction on what is left to pass: the search moves
right up to the last node it passes. -/
theorem search_level (h : Spells s t) (hp : Tower.Downward test) {i : Nat} (hi : i < kMaxHeight)
    {l after : List Link} {x : Link} (hsplit : headLink :: t.passed test i = l ++ x :: after)
    (bound : Nat) (prev : List (Option Addr)) :
    s.search test (bound + after.length) x.1 i prev =
      s.search test bound (stop t test i).1 i prev := by
  -- each turn passes one node and leaves the rest
  induction after generalizing l x with
  | nil =>
    have hstop : stop t test i = x := by
      have hlast := congrArg List.getLast? hsplit
      rw [List.getLast?_cons, List.getLast?_append] at hlast
      simpa [stop, List.getLastD_eq_getLast?] using hlast
    rw [hstop]
    rfl
  | cons y after ih =>
    have hy : y ∈ t.passed test i := by
      cases l with
      | nil => simp [(List.cons_eq_cons.mp hsplit).2]
      | cons _ l => simp [(List.cons_eq_cons.mp hsplit).2]
    obtain ⟨hmem, htest⟩ := Tower.of_mem_passed hy
    have hnext := h.next_passed hp hi hsplit
    have hpass := (h.passes_link hmem).trans (congrArg Except.ok htest)
    rw [List.length_cons, ← Nat.add_assoc, search_right hnext hpass]
    exact ih (l := l ++ [x]) (by rw [hsplit]; simp)

/-- A node that a search passes, and what is left to pass behind it. -/
theorem split_passed (h : Spells s t) {i : Nat} {x : Link}
    (hx : x ∈ headLink :: t.passed test i) :
    ∃ l after, headLink :: t.passed test i = l ++ x :: after ∧
      after.length < s.nodes.length := by
  obtain ⟨l, after, hsplit⟩ := List.append_of_mem hx
  refine ⟨l, after, hsplit, ?_⟩
  have hlen := congrArg List.length hsplit
  rw [List.length_cons, List.length_append, List.length_cons] at hlen
  have hpassed : (t.passed test i).length ≤ (t.level i).length := List.length_filter_le ..
  have hlevel := h.length_lt i
  omega

/-- **The searches.** By induction on the level: wherever a search starts among the
nodes it passes, it leaves each level at the last of them. -/
theorem search_spec (h : Spells s t) (hp : Tower.Downward test) {i : Nat} (hi : i < kMaxHeight)
    {x : Link} (hx : x ∈ headLink :: t.passed test i) {bound : Nat}
    (hbound : (i + 1) * s.nodes.length ≤ bound) (prev : List (Option Addr)) :
    ∃ prev', s.search test bound x.1 i prev = .ok ((stop t test 0).1, ahead t test 0, prev') ∧
      prev'.length = prev.length ∧
      (∀ j ≤ i, j < prev.length → prev'[j]? = some (some (stop t test j).1)) ∧
      ∀ j, i < j → prev'[j]? = prev[j]? := by
  -- on level 0 the search ends; above it goes down and starts again among the nodes it passed
  induction i generalizing x bound prev with
  | zero =>
    obtain ⟨l, after, hsplit, hafter⟩ := h.split_passed hx
    obtain ⟨b, rfl⟩ : ∃ b, bound = b + 1 + after.length := ⟨bound - 1 - after.length, by omega⟩
    rw [h.search_level hp hi hsplit, search_stop (h.next_stop hp hi) (h.passes_ahead test 0)]
    refine ⟨_, rfl, List.length_set, fun j hj hlt => ?_, fun j hj => ?_⟩
    · obtain rfl := Nat.le_zero.mp hj
      exact List.getElem?_set_self hlt
    · exact List.getElem?_set_ne (by omega)
  | succ i ih =>
    obtain ⟨l, after, hsplit, hafter⟩ := h.split_passed hx
    have hmul : (i + 1 + 1) * s.nodes.length = (i + 1) * s.nodes.length + s.nodes.length := by ring
    obtain ⟨b, rfl⟩ : ∃ b, bound = b + 1 + after.length := ⟨bound - 1 - after.length, by omega⟩
    -- the last node passed here is passed on the level below, too
    have hmem : stop t test (i + 1) ∈ headLink :: t.passed test i :=
      ((t.passed_sublist test (Nat.le_succ i)).cons_cons headLink).subset (stop_mem t test (i + 1))
    have hb : (i + 1) * s.nodes.length ≤ b := by omega
    obtain ⟨prev', hsearch, hlen, hset, hkeep⟩ :=
      ih (by omega) hmem hb (prev.set (i + 1) (some (stop t test (i + 1)).1))
    rw [h.search_level hp hi hsplit, search_down (h.next_stop hp hi) (h.passes_ahead test (i + 1))]
    rw [List.length_set] at hlen hset
    refine ⟨prev', hsearch, hlen, fun j hj hlt => ?_, fun j hj => ?_⟩
    · rcases Nat.lt_or_ge j (i + 1) with hlow | hhigh
      · exact hset j (by omega) hlt
      · obtain rfl : j = i + 1 := by omega
        rw [hkeep (i + 1) (by omega)]
        exact List.getElem?_set_self hlt
    · rw [hkeep j (by omega)]
      exact List.getElem?_set_ne (by omega)

/-- A search from the head. -/
theorem searchFromHead_spec (h : Spells s t) (hp : Tower.Downward test) :
    ∃ prev, s.searchFromHead test = .ok ((stop t test 0).1, ahead t test 0, prev) ∧
      prev.length = kMaxHeight ∧
      ∀ j < s.maxHeight, prev[j]? = some (some (stop t test j).1) := by
  have hone := h.one_le
  have hmax := h.le_max
  have hbound : (s.maxHeight - 1 + 1) * s.nodes.length ≤ s.searchBound := by
    rw [Nat.sub_add_cancel hone]
    exact le_rfl
  obtain ⟨prev, hsearch, hlen, hset, -⟩ := h.search_spec hp (i := s.maxHeight - 1) (by omega)
    (x := headLink) List.mem_cons_self hbound (List.replicate kMaxHeight none)
  rw [List.length_replicate] at hlen hset
  exact ⟨prev, hsearch, hlen, fun j hj => hset j (by omega) (by omega)⟩

end Spells

end Search

-- ---------------------------------------------------------------------------
-- What the readers see
-- ---------------------------------------------------------------------------

/-- A node as an iterator shows it, behind its address. -/
def shown (s : SkipList) (x : Link) : Addr × Bytes × Bytes :=
  (x.1, x.2, (s.nodes[x.1]?.map Node.value).getD [])

/-- The entries of the level-0 chain. -/
def entries (s : SkipList) (t : Chains) : List (Bytes × Bytes) :=
  (t.level 0).map fun x => (s.shown x).2

/-- They ascend. -/
theorem entries_sorted (s : SkipList) (t : Chains) :
    (s.entries t).Pairwise fun a b => a.1 < b.1 := List.pairwise_map.mpr t.asc

namespace Spells

variable {s : SkipList} {t : Chains}

/-- A node of a chain and what is shown of it. -/
theorem nodeAt_shown (h : Spells s t) {x : Link} (hx : x ∈ t.level 0) :
    ∃ n, s.nodeAt x.1 = .ok n ∧ s.shown x = (x.1, n.key, n.value) := by
  obtain ⟨-, n, hn, hkey⟩ := h.node x hx
  refine ⟨n, nodeAt_eq_ok_iff.mpr hn, ?_⟩
  rw [shown, hn, ← hkey]
  rfl

/-- The test of `KeyIsAfterNode` is that of the tower. -/
theorem keyIsAfterNode_eq (key : Bytes) : keyIsAfterNode key = Tower.before key := by
  funext nodeKey
  exact decide_eq_decide.mpr Iff.rfl

/-- **FindGreaterOrEqual** finds the first node that is not below the key, and in `prev`, at
each level, the last one that is. -/
theorem findGreaterOrEqual_spec (h : Spells s t) (key : Bytes) :
    ∃ prev, s.findGreaterOrEqual key = .ok ((t.above key 0).head?.map Prod.fst, prev) ∧
      prev.length = kMaxHeight ∧
      ∀ j < s.maxHeight, prev[j]? = some (some (stop t (Tower.before key) j).1) := by
  obtain ⟨prev, hsearch, hprev⟩ := h.searchFromHead_spec (Tower.downward_before key)
  refine ⟨prev, ?_, hprev⟩
  rw [findGreaterOrEqual, keyIsAfterNode_eq, hsearch]
  rfl

/-- The node found has the key, if a node has it. -/
theorem holding_of_mem (h : Spells s t) {x : Link} (hx : x ∈ t.level 0) :
    s.holding x.2 ((t.above x.2 0).head?.map Prod.fst) = .ok (some x.1) := by
  obtain ⟨n, hn, hkey⟩ := h.nodeAt hx
  rw [(Tower.head?_above rfl).mpr hx]
  show (s.nodeAt x.1).map _ = _
  rw [hn]
  exact congrArg Except.ok (if_pos hkey)

/-- No node has it, so the one found does not. -/
theorem holding_of_forall_ne (h : Spells s t) {key : Bytes} (hnew : ∀ x ∈ t.level 0, x.2 ≠ key) :
    s.holding key ((t.above key 0).head?.map Prod.fst) = .ok none := by
  cases habove : (t.above key 0).head? with
  | none => rfl
  | some y =>
    obtain ⟨hy, -⟩ := Tower.of_mem_rest (List.mem_of_head? habove)
    obtain ⟨n, hn, hkey⟩ := h.nodeAt hy
    show (s.nodeAt y.1).map _ = _
    rw [hn]
    exact congrArg Except.ok (if_neg (hkey ▸ hnew y hy))

/-- A key is in the chain once or not at all. -/
theorem mem_or_forall_ne (t : Chains) (key : Bytes) :
    (∃ x ∈ t.level 0, x.2 = key) ∨ ∀ x ∈ t.level 0, x.2 ≠ key := by
  by_cases hex : ∃ x ∈ t.level 0, x.2 = key
  · exact .inl hex
  · exact .inr fun x hx hk => hex ⟨x, hx, hk⟩

/-- The entry of a key is what is shown of its node. -/
theorem lookup_of_shown {x : Link} (hx : x ∈ t.level 0) {n : Node}
    (hshown : s.shown x = (x.1, n.key, n.value)) :
    SortedMap.lookup x.2 (s.entries t) = some n.value := by
  have hmem : (x.2, n.value) ∈ s.entries t :=
    List.mem_map.mpr ⟨x, hx, Prod.ext rfl (congrArg (fun e => e.2.2) hshown)⟩
  exact (SortedMap.lookup_eq_some_of_sorted (s.entries_sorted t)).mpr hmem

/-- A key of no node has no entry. -/
theorem lookup_of_forall_ne {key : Bytes} (hnew : ∀ x ∈ t.level 0, x.2 ≠ key) :
    SortedMap.lookup key (s.entries t) = none := by
  rw [Option.eq_none_iff_forall_ne_some]
  intro v hv
  obtain ⟨x, hx, hxv⟩ := List.mem_map.mp
    ((SortedMap.lookup_eq_some_of_sorted (s.entries_sorted t)).mp hv)
  exact hnew x hx (congrArg Prod.fst hxv)

/-- **Get** looks a key up in the chain. -/
theorem get_spec (h : Spells s t) (key : Bytes) :
    s.get key = .ok (SortedMap.lookup key (s.entries t)) := by
  obtain ⟨prev, hfind, -⟩ := h.findGreaterOrEqual_spec key
  rw [get, hfind, Except.ok_bind]
  rcases mem_or_forall_ne t key with ⟨x, hx, rfl⟩ | hnew
  · obtain ⟨n, hn, hshown⟩ := h.nodeAt_shown hx
    rw [lookup_of_shown hx hshown]
    simp only [h.holding_of_mem hx, Except.ok_bind, hn]
    rfl
  · rw [lookup_of_forall_ne hnew]
    simp only [h.holding_of_forall_ne hnew, Except.ok_bind]

/-- So does **Contains**. -/
theorem contains_spec (h : Spells s t) (key : Bytes) :
    s.contains key = .ok (SortedMap.lookup key (s.entries t)).isSome := by
  obtain ⟨prev, hfind, -⟩ := h.findGreaterOrEqual_spec key
  rw [contains, hfind, Except.ok_bind]
  rcases mem_or_forall_ne t key with ⟨x, hx, rfl⟩ | hnew
  · obtain ⟨n, -, hshown⟩ := h.nodeAt_shown hx
    rw [lookup_of_shown hx hshown]
    simp only [h.holding_of_mem hx, Except.ok_bind]
    rfl
  · rw [lookup_of_forall_ne hnew]
    simp only [h.holding_of_forall_ne hnew, Except.ok_bind]
    rfl

-- ---------------------------------------------------------------------------
-- Iteration
-- ---------------------------------------------------------------------------

/-- A walk over the nodes of a list, by a move that follows it. -/
theorem visit_spec (h : Spells s t) {move : Addr → Except Fault Position} {l : List Link}
    (hl : ∀ x ∈ l, x ∈ t.level 0)
    (hmove : ∀ before x after, l = before ++ x :: after →
      move x.1 = .ok (after.head?.map Prod.fst)) {bound : Nat} (hbound : l.length ≤ bound) :
    s.visit move bound (l.head?.map Prod.fst) = .ok (l.map s.shown) := by
  induction l generalizing bound with
  | nil => cases bound <;> rfl
  | cons x l ih =>
    obtain ⟨b, rfl⟩ : ∃ b, bound = b + 1 := ⟨bound - 1, by rw [List.length_cons] at hbound; omega⟩
    obtain ⟨n, hn, hshown⟩ := h.nodeAt_shown (hl x List.mem_cons_self)
    have hrest := ih (fun y hy => hl y (List.mem_cons_of_mem x hy))
      (fun before y after hsplit => hmove (x :: before) y after (by rw [hsplit]; rfl))
      (Nat.le_of_succ_le_succ hbound)
    rw [List.head?_cons, Option.map_some, visit, hn, Except.ok_bind, hmove [] x l rfl,
      Except.ok_bind, hrest, List.map_cons, hshown]
    rfl

/-- A chain is walked by its pointers. -/
theorem levelChain_spec (h : Spells s t) {i : Nat} (hi : i < kMaxHeight) :
    s.levelChain i = .ok ((t.level i).map s.shown) := by
  have hhead : s.next head i = .ok ((t.level i).head?.map Prod.fst) :=
    h.next i hi [] headLink (t.level i) rfl
  rw [levelChain, hhead, Except.ok_bind]
  refine h.visit_spec (fun x hx => t.mem_zero hx) (fun before x after hsplit => ?_)
    (h.length_lt i).le
  exact h.next i hi (headLink :: before) x after (by rw [hsplit]; rfl)

/-- `Next` goes to the node behind. -/
theorem iterNext_spec (h : Spells s t) {l r : List Link} {x : Link}
    (hsplit : t.level 0 = l ++ x :: r) : s.iterNext x.1 = .ok (r.head?.map Prod.fst) :=
  h.next 0 (by decide) (headLink :: l) x r (by rw [hsplit]; rfl)

/-- Iterating from some node on. -/
theorem forward_spec (h : Spells s t) {l r : List Link} (hsplit : t.level 0 = l ++ r) :
    s.forward (r.head?.map Prod.fst) = .ok (r.map s.shown) := by
  have hlen := h.length_lt 0
  rw [hsplit, List.length_append] at hlen
  refine h.visit_spec (fun x hx => by simp [hsplit, hx]) (fun before x after hr => ?_) (by omega)
  exact h.iterNext_spec (l := l ++ before) (by rw [hsplit, hr, List.append_assoc])

/-- **SeekToFirst** is at the first node. -/
theorem seekToFirst_spec (h : Spells s t) :
    s.seekToFirst = .ok ((t.level 0).head?.map Prod.fst) :=
  h.next 0 (by decide) [] headLink (t.level 0) rfl

/-- **Seek** is at the first node that is not below the target. -/
theorem seek_spec (h : Spells s t) (target : Bytes) :
    s.seek target = .ok ((t.above target 0).head?.map Prod.fst) := by
  obtain ⟨prev, hfind, -⟩ := h.findGreaterOrEqual_spec target
  rw [seek, hfind]
  rfl

/-- A backward search stops at a position, or at the head when it passes nothing. -/
theorem notHead_getLastD (h : Spells s t) {l : List Link} (hl : ∀ x ∈ l, x ∈ t.level 0) :
    notHead (l.getLastD headLink).1 = l.reverse.head?.map Prod.fst := by
  rw [List.head?_reverse, List.getLastD_eq_getLast?]
  cases hlast : l.getLast? with
  | none => rfl
  | some x => exact if_neg (h.node x (hl x (List.mem_of_getLast? hlast))).1

/-- **FindLessThan** finds the last node below the key. -/
theorem findLessThan_spec (h : Spells s t) (key : Bytes) :
    s.findLessThan key = .ok (stop t (Tower.before key) 0).1 := by
  have htest : (fun nodeKey => !decide (nodeKey ≥ key)) = Tower.before key := by
    funext nodeKey
    rw [Tower.before, ← decide_not]
    exact decide_eq_decide.mpr not_le
  obtain ⟨prev, hsearch, -⟩ := h.searchFromHead_spec (Tower.downward_before key)
  rw [findLessThan, htest, hsearch]
  rfl

/-- `Prev` goes to the node in front, found by its key. -/
theorem iterPrev_spec (h : Spells s t) {l r : List Link} {x : Link}
    (hsplit : t.level 0 = l ++ x :: r) :
    s.iterPrev x.1 = .ok (l.reverse.head?.map Prod.fst) := by
  have hx : x ∈ t.level 0 := by simp [hsplit]
  obtain ⟨n, hn, hkey⟩ := h.nodeAt hx
  have hpassed : t.passed (Tower.before x.2) 0 = l := by
    have hasc := t.asc
    rw [hsplit, List.pairwise_append, List.pairwise_cons] at hasc
    obtain ⟨-, ⟨hafter, -⟩, hbefore⟩ := hasc
    rw [Tower.passed, hsplit, List.filter_append, List.filter_eq_self.mpr, List.filter_eq_nil_iff.mpr,
      List.append_nil]
    · intro y hy
      rw [Bool.not_eq_true, Tower.before_eq_false]
      rcases List.mem_cons.mp hy with rfl | hy
      · exact le_rfl
      · exact (hafter y hy).le
    · intro y hy
      exact Tower.before_eq_true.mpr (hbefore y hy x List.mem_cons_self)
  rw [iterPrev, hn, Except.ok_bind, hkey, h.findLessThan_spec, Except.ok_bind, stop, hpassed,
    h.notHead_getLastD fun y hy => by simp [hsplit, hy]]
  rfl

/-- **SeekToLast** is at the last node. -/
theorem seekToLast_spec (h : Spells s t) :
    s.seekToLast = .ok ((t.level 0).reverse.head?.map Prod.fst) := by
  obtain ⟨prev, hsearch, -⟩ := h.searchFromHead_spec Tower.downward_true
  rw [seekToLast, findLast, hsearch, stop, Tower.passed_true]
  exact congrArg Except.ok (h.notHead_getLastD fun x hx => hx)

/-- Iterating from some node back. -/
theorem backward_spec (h : Spells s t) {l r : List Link} (hsplit : t.level 0 = l ++ r) :
    s.backward (l.reverse.head?.map Prod.fst) = .ok (l.reverse.map s.shown) := by
  have hlen := h.length_lt 0
  rw [hsplit, List.length_append] at hlen
  refine h.visit_spec (fun x hx => ?_) (fun before x after hr => ?_) ?_
  · rw [hsplit]
    exact List.mem_append_left r (List.mem_reverse.mp hx)
  -- the nodes behind, taken from the last one on, are those in front of it in the chain
  · have hl : l = after.reverse ++ x :: before.reverse := by
      rw [← List.reverse_reverse l, hr]
      simp
    have hprev := h.iterPrev_spec (l := after.reverse) (r := before.reverse ++ r) (x := x)
      (by rw [hsplit, hl, List.append_assoc, List.cons_append])
    rwa [List.reverse_reverse] at hprev
  · rw [List.length_reverse]
    omega

/-- The positions are the nodes of the chain. -/
theorem mem_of_positioned (h : Spells s t) {a : Addr} (ha : s.Positioned a) :
    ∃ x ∈ t.level 0, x.1 = a := by
  -- a search or a step that has a position has it from the head of a list of nodes
  have hfirst : ∀ {l : List Link} {b : Addr}, (∀ x ∈ l, x ∈ t.level 0) →
      (Except.ok (l.head?.map Prod.fst) : Except Fault Position) = .ok (some b) →
      ∃ x ∈ t.level 0, x.1 = b := by
    intro l b hl hb
    obtain ⟨x, hx, rfl⟩ := Option.map_eq_some_iff.mp (Except.ok.inj hb)
    exact ⟨x, hl x (List.mem_of_head? hx), rfl⟩
  -- by induction on how the iterator came there
  induction ha with
  | @seek target b hb => exact hfirst (fun x hx => (Tower.of_mem_rest hx).1) (h.seek_spec target ▸ hb)
  | first hb => exact hfirst (fun x hx => hx) (h.seekToFirst_spec ▸ hb)
  | last hb => exact hfirst (fun x hx => List.mem_reverse.mp hx) (h.seekToLast_spec ▸ hb)
  | next _ hb ih =>
    obtain ⟨x, hx, rfl⟩ := ih
    obtain ⟨l, r, hsplit⟩ := List.append_of_mem hx
    exact hfirst (fun y hy => by simp [hsplit, hy]) (h.iterNext_spec hsplit ▸ hb)
  | prev _ hb ih =>
    obtain ⟨x, hx, rfl⟩ := ih
    obtain ⟨l, r, hsplit⟩ := List.append_of_mem hx
    refine hfirst (fun y hy => ?_) (h.iterPrev_spec hsplit ▸ hb)
    rw [hsplit]
    exact List.mem_append_left _ (List.mem_reverse.mp hy)

end Spells

end SkipList

end Zenith
