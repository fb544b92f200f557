import Zenith.Lib.Bytes
import Zenith.Lib.SortedMap

/-!
# Zenith — vector clocks

The clocks of `vector_clock.h`: a map from node ids to 64-bit counters, where a node without
an entry counts as 0.

Clocks are preordered pointwise. `compare` walks the sorted, de-duplicated union of both key
sets and collects two flags; the `compare_eq_*` lemmas show that it decides exactly this
preorder, and `le_merge_left`, `le_merge_right` and `merge_le` that `merge` is its least
upper bound. The preorder is not a partial order: clocks that differ only in explicit zeros
are equivalent.

The preorder is an instance, lifted from functions to counters, so that chains of
comparisons use Mathlib's lemmas about `≤` and `<`. No later module looks at the loops of
`merge` and `compare` again. The instances at the end make the order decidable by running
`compare`, which is how examples evaluate it.

Counters are `UInt64`, with its arithmetic. An increment of the largest one gives zero;
lemmas that exclude this say so in their assumptions.
-/

namespace Zenith

abbrev NodeID := Bytes
/-- Counts the writes of one node. -/
abbrev Counter := UInt64

/-- Comparison results. -/
inductive ClockOrder
  | equal
  | happensBefore
  | happensAfter
  | concurrent
  deriving DecidableEq, Repr

/-- A clock is a sorted map, as `std::map` is, so that equal maps are encoded by equal
bytes. -/
structure VectorClock where
  clock : SortedMap NodeID Counter
  deriving DecidableEq

namespace VectorClock

def empty : VectorClock := ⟨SortedMap.empty⟩

/-- The counter of a node, 0 when the clock has no entry for it. -/
def get (c : VectorClock) (node : NodeID) : Counter := (c.clock.get? node).getD 0

/-- Advances the node's counter by one, modulo `2 ^ 64`. -/
def increment (c : VectorClock) (node : NodeID) : VectorClock :=
  ⟨c.clock.insert node (c.get node + 1)⟩

/-- One round of the loop of `merge`: `clock[node] = max(clock[node], counter)`. -/
def mergeEntry (c : VectorClock) (e : NodeID × Counter) : VectorClock :=
  ⟨c.clock.insert e.1 (max (c.get e.1) e.2)⟩

/-- Takes the maximum of each entry. -/
def merge (c other : VectorClock) : VectorClock := other.clock.toList.foldl mergeEntry c

/-- Drops every element equal to the one before it, as `std::unique`. -/
def unique : List NodeID → List NodeID
  | [] => []
  | [x] => [x]
  | x :: y :: rest => if x = y then unique (y :: rest) else x :: unique (y :: rest)

/-- All keys of both clocks, sorted, each once. -/
def unionKeys (c other : VectorClock) : List NodeID :=
  unique ((c.clock.keys ++ other.clock.keys).insertionSort (· ≤ ·))

/-- One round of the loop of `compare`: which side has been seen greater. -/
def compareNode (c other : VectorClock) (flags : Bool × Bool) (node : NodeID) : Bool × Bool :=
  let c1 := c.get node
  let c2 := other.get node
  (flags.1 || decide (c1 > c2), flags.2 || decide (c2 > c1))

/-- Compares two clocks. The flags are collected over all keys; the source does not stop
early. -/
def compare (c other : VectorClock) : ClockOrder :=
  match (unionKeys c other).foldl (compareNode c other) (false, false) with
  | (false, false) => .equal
  | (true, false) => .happensAfter
  | (false, true) => .happensBefore
  | (true, true) => .concurrent

/-! ## The pointwise preorder -/

instance : Preorder VectorClock := Preorder.lift get

/-- The order of clocks, in components. -/
theorem le_iff {a b : VectorClock} : a ≤ b ↔ ∀ n, a.get n ≤ b.get n := Iff.rfl

theorem get_eq_of_le_of_le {a b : VectorClock} (hab : a ≤ b) (hba : b ≤ a) (n : NodeID) :
    a.get n = b.get n :=
  le_antisymm (hab n) (hba n)

@[simp] theorem get_empty (n : NodeID) : empty.get n = 0 := rfl

theorem empty_le (c : VectorClock) : empty ≤ c := fun _ => UInt64.zero_le

theorem get_eq_zero_of_not_mem {c : VectorClock} {n : NodeID} (h : n ∉ c.clock.keys) :
    c.get n = 0 := by
  have hnone : c.clock.get? n = none := SortedMap.get?_eq_none_iff.mpr fun v hv =>
    h (List.mem_map_of_mem (f := Prod.fst) hv)
  rw [get, hnone, Option.getD_none]

/-! ## Increment -/

theorem get_increment (c : VectorClock) (node n : NodeID) :
    (c.increment node).get n = if n = node then c.get node + 1 else c.get n := by
  rw [increment, get, SortedMap.get?_insert]
  split <;> rfl

theorem get_increment_self (c : VectorClock) (node : NodeID) :
    (c.increment node).get node = c.get node + 1 := by
  rw [get_increment, if_pos rfl]

theorem get_increment_of_ne (c : VectorClock) {node n : NodeID} (h : n ≠ node) :
    (c.increment node).get n = c.get n := by
  rw [get_increment, if_neg h]

/-- A counter below the maximum does not wrap. -/
theorem toNat_get_increment {c : VectorClock} {node : NodeID}
    (h : (c.get node).toNat + 1 < 2 ^ 64) :
    ((c.increment node).get node).toNat = (c.get node).toNat + 1 := by
  rw [get_increment_self, UInt64.toNat_add]
  exact Nat.mod_eq_of_lt h

/-- A node that counts a write is strictly above where it was, unless the counter was full. -/
theorem lt_increment {c : VectorClock} {node : NodeID} (h : (c.get node).toNat + 1 < 2 ^ 64) :
    c < c.increment node := by
  have hself := toNat_get_increment h
  refine lt_iff_le_not_ge.mpr ⟨fun n => ?_, fun hge => ?_⟩
  · by_cases hn : n = node
    · subst hn
      rw [UInt64.le_iff_toNat_le, hself]
      omega
    · rw [get_increment_of_ne c hn]
  · have := UInt64.le_iff_toNat_le.mp (hge node)
    omega

/-! ## Merge -/

/-- The loop of `merge`, seen from one node. -/
theorem get_foldl_mergeEntry (es : List (NodeID × Counter)) (c : VectorClock) (n : NodeID) :
    (es.foldl mergeEntry c).get n =
      es.foldl (fun x e => if e.1 = n then max x e.2 else x) (c.get n) := by
  induction es generalizing c with
  | nil => rfl
  | cons e es ih =>
    rw [List.foldl_cons, List.foldl_cons, ih]
    congr 1
    by_cases hn : e.1 = n
    · rw [if_pos hn, mergeEntry, get, SortedMap.get?_insert, if_pos hn.symm, hn]
      rfl
    · rw [if_neg hn, mergeEntry, get, SortedMap.get?_insert, if_neg (Ne.symm hn)]
      rfl

theorem foldl_max_of_not_mem {es : List (NodeID × Counter)} {n : NodeID}
    (h : ∀ e ∈ es, e.1 ≠ n) (x : Counter) :
    es.foldl (fun x e => if e.1 = n then max x e.2 else x) x = x := by
  induction es generalizing x with
  | nil => rfl
  | cons e es ih =>
    rw [List.foldl_cons, if_neg (h e (List.mem_cons_self ..))]
    exact ih (fun d hd => h d (List.mem_cons_of_mem _ hd)) x

/-- The entries of a map mention each node at most once, so the loop of
`merge` raises each counter at most once. -/
theorem foldl_max_of_sorted {es : List (NodeID × Counter)}
    (h : es.Pairwise fun a b => a.1 < b.1) (n : NodeID) (x : Counter) :
    es.foldl (fun x e => if e.1 = n then max x e.2 else x) x =
      max x ((SortedMap.lookup n es).getD 0) := by
  induction es generalizing x with
  | nil => exact (max_eq_left UInt64.zero_le).symm
  | cons e es ih =>
    obtain ⟨hhead, htail⟩ := List.pairwise_cons.mp h
    rw [List.foldl_cons, SortedMap.lookup]
    by_cases hn : e.1 = n
    · rw [if_pos hn, if_pos hn.symm]
      exact foldl_max_of_not_mem (fun d hd => hn ▸ (hhead d hd).ne') _
    · rw [if_neg hn, if_neg (Ne.symm hn)]
      exact ih htail x

/-- Merging takes the pointwise maximum. -/
@[simp] theorem get_merge (a b : VectorClock) (n : NodeID) :
    (a.merge b).get n = max (a.get n) (b.get n) := by
  rw [merge, get_foldl_mergeEntry]
  exact foldl_max_of_sorted b.clock.sorted n _

theorem le_merge_left (a b : VectorClock) : a ≤ a.merge b := fun n => by
  rw [get_merge]
  exact le_max_left _ _

theorem le_merge_right (a b : VectorClock) : b ≤ a.merge b := fun n => by
  rw [get_merge]
  exact le_max_right _ _

/-- A clock that is above both sides is above their merge. -/
theorem merge_le {a b c : VectorClock} (ha : a ≤ c) (hb : b ≤ c) : a.merge b ≤ c := fun n => by
  rw [get_merge]
  exact max_le (ha n) (hb n)

/-! ## Compare -/

theorem mem_unique {l : List NodeID} {x : NodeID} : x ∈ unique l ↔ x ∈ l := by
  induction l using unique.induct with
  | case1 => rfl
  | case2 y => rfl
  | case3 y rest ih =>
    rw [unique, if_pos rfl, ih]
    simp
  | case4 y z rest hne ih =>
    rw [unique, if_neg hne, List.mem_cons, ih, ← List.mem_cons]

/-- Sorting and dropping duplicates loses no key. -/
theorem mem_unionKeys {a b : VectorClock} {n : NodeID} :
    n ∈ unionKeys a b ↔ n ∈ a.clock.keys ∨ n ∈ b.clock.keys := by
  rw [unionKeys, mem_unique, List.mem_insertionSort, List.mem_append]

/-- The flags after the loop of `compare`. -/
theorem foldl_compareNode (a b : VectorClock) (nodes : List NodeID) (flags : Bool × Bool) :
    nodes.foldl (compareNode a b) flags =
      (flags.1 || nodes.any fun n => decide (a.get n > b.get n),
       flags.2 || nodes.any fun n => decide (b.get n > a.get n)) := by
  induction nodes generalizing flags with
  | nil => simp
  | cons n nodes ih => rw [List.foldl_cons, ih]; simp [compareNode, Bool.or_assoc]

/-- Outside the union of the key sets both counters are 0, so a flag is raised
exactly when the other clock fails to dominate. -/
theorem any_unionKeys_iff (a b c d : VectorClock) (hc : c = a ∧ d = b ∨ c = b ∧ d = a) :
    (unionKeys a b).any (fun n => decide (c.get n > d.get n)) = true ↔ ¬ c ≤ d := by
  rw [List.any_eq_true, le_iff, not_forall]
  constructor
  · rintro ⟨n, -, hgt⟩
    exact ⟨n, not_le.mpr (of_decide_eq_true hgt)⟩
  · rintro ⟨n, hn⟩
    refine ⟨n, mem_unionKeys.mpr ?_, decide_eq_true (not_le.mp hn)⟩
    by_contra hnot
    rw [not_or] at hnot
    have ha := get_eq_zero_of_not_mem hnot.1
    have hb := get_eq_zero_of_not_mem hnot.2
    rcases hc with ⟨rfl, rfl⟩ | ⟨rfl, rfl⟩ <;> exact hn (by rw [ha, hb])

/-- `compare` decides the pointwise preorder. -/
theorem compare_eq (a b : VectorClock) [Decidable (a ≤ b)] [Decidable (b ≤ a)] :
    a.compare b =
      if a ≤ b then (if b ≤ a then .equal else .happensBefore)
      else (if b ≤ a then .happensAfter else .concurrent) := by
  have hab := any_unionKeys_iff a b a b (Or.inl ⟨rfl, rfl⟩)
  have hba := any_unionKeys_iff a b b a (Or.inr ⟨rfl, rfl⟩)
  rw [compare, foldl_compareNode]
  by_cases h : a ≤ b <;> by_cases h' : b ≤ a <;>
    simp only [h, h', not_true_eq_false, not_false_eq_true, iff_false, iff_true,
      Bool.not_eq_true] at hab hba <;>
    simp [h, h', hab, hba]

theorem compare_eq_happensBefore_iff {a b : VectorClock} :
    a.compare b = .happensBefore ↔ a < b := by
  classical
  rw [compare_eq, lt_iff_le_not_ge]
  by_cases h : a ≤ b <;> by_cases h' : b ≤ a <;> simp [h, h']

theorem compare_eq_concurrent_iff {a b : VectorClock} :
    a.compare b = .concurrent ↔ ¬ a ≤ b ∧ ¬ b ≤ a := by
  classical
  rw [compare_eq]
  by_cases h : a ≤ b <;> by_cases h' : b ≤ a <;> simp [h, h']

theorem compare_eq_le_iff {a b : VectorClock} :
    a.compare b = .equal ∨ a.compare b = .happensBefore ↔ a ≤ b := by
  classical
  rw [compare_eq]
  by_cases h : a ≤ b <;> by_cases h' : b ≤ a <;> simp [h, h']

instance (a b : VectorClock) : Decidable (a ≤ b) := decidable_of_iff _ compare_eq_le_iff

instance (a b : VectorClock) : Decidable (a < b) :=
  decidable_of_iff _ compare_eq_happensBefore_iff

end VectorClock

end Zenith
