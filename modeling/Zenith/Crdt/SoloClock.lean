import Zenith.Crdt.Codec

/-!
# Zenith — the clocks of one node

A node that only writes itself gives its registers the clocks `soloClock node 1`, `soloClock
node 2`, ...: one entry, counted up. They form a chain, and merging two of them literally
gives one of them back.

Literally means that the map has the same entries, and not only that it reads the same. A
scan stores what it has merged as bytes and reads it again, and results on a single node say
which bytes these are; with equality up to zeros they could not.

The chain ends where the counter is full, so the lemmas ask for fewer than `2 ^ 64` writes.

Main result: `merge_solo` — registers with such clocks merge to the one that was written
later.
-/

namespace Zenith

open Bytes

namespace VectorClock

/-- The clock of a node after `n` writes of its own. -/
def soloClock (node : NodeID) : Nat → VectorClock
  | 0 => empty
  | n + 1 => (soloClock node n).increment node

variable {node : NodeID}

/-- The own component counts the writes, modulo `2 ^ 64`. -/
theorem get_soloClock_self (n : Nat) : (soloClock node n).get node = UInt64.ofNat n := by
  induction n with
  | zero => rfl
  | succ n ih =>
    rw [soloClock, get_increment_self, ih, ← UInt64.ofNat_one, ← UInt64.ofNat_add]

theorem get_soloClock_of_ne {m : NodeID} (h : m ≠ node) (n : Nat) :
    (soloClock node n).get m = 0 := by
  induction n with
  | zero => rfl
  | succ n ih => rw [soloClock, get_increment_of_ne _ h, ih]

/-- From the first write on the clock has exactly one entry. -/
theorem toList_soloClock (n : Nat) :
    (soloClock node (n + 1)).clock.toList = [(node, UInt64.ofNat (n + 1))] := by
  have hentry : (soloClock node n).get node + 1 = UInt64.ofNat (n + 1) := by
    rw [← get_increment_self]
    exact get_soloClock_self (n + 1)
  show SortedMap.insertEntry node _ (soloClock node n).clock.toList = _
  rw [hentry]
  cases n with
  | zero => rfl
  | succ n =>
    rw [toList_soloClock n, SortedMap.insertEntry, if_neg (lt_irrefl node), if_pos rfl]

/-- Fewer writes have a smaller clock, as long as the counter does not wrap around. -/
theorem soloClock_le {i j : Nat} (hij : i ≤ j) (hj : j < 2 ^ 64) :
    soloClock node i ≤ soloClock node j := by
  intro m
  by_cases hm : m = node
  · subst hm
    show (soloClock m i).get m ≤ (soloClock m j).get m
    rw [get_soloClock_self, get_soloClock_self, UInt64.le_iff_toNat_le, UInt64.toNat_ofNat',
      UInt64.toNat_ofNat', Nat.mod_eq_of_lt hj, Nat.mod_eq_of_lt (by omega)]
    exact hij
  · show (soloClock node i).get m ≤ (soloClock node j).get m
    rw [get_soloClock_of_ne hm, get_soloClock_of_ne hm]

theorem le_of_soloClock_le {i j : Nat} (hi : i < 2 ^ 64) (hj : j < 2 ^ 64)
    (h : soloClock node i ≤ soloClock node j) : i ≤ j := by
  have hnode := h node
  change (soloClock node i).get node ≤ (soloClock node j).get node at hnode
  rwa [get_soloClock_self, get_soloClock_self, UInt64.le_iff_toNat_le, UInt64.toNat_ofNat',
    UInt64.toNat_ofNat', Nat.mod_eq_of_lt hi, Nat.mod_eq_of_lt hj] at hnode

theorem soloClock_lt {i j : Nat} (hij : i < j) (hj : j < 2 ^ 64) :
    soloClock node i < soloClock node j := by
  refine lt_of_le_not_ge (soloClock_le hij.le hj) fun hle => ?_
  have := le_of_soloClock_le hj (hij.trans hj) hle
  omega

/-- Two clocks with one entry each, for the same id. -/
theorem merge_soloClock_succ {i j : Nat} (hji : j ≤ i) (hi : i + 1 < 2 ^ 64) :
    (soloClock node (i + 1)).merge (soloClock node (j + 1)) = soloClock node (i + 1) := by
  have hle : UInt64.ofNat (j + 1) ≤ UInt64.ofNat (i + 1) := by
    rw [UInt64.le_iff_toNat_le, UInt64.toNat_ofNat', UInt64.toNat_ofNat',
      Nat.mod_eq_of_lt hi, Nat.mod_eq_of_lt (by omega)]
    omega
  have hlist : ((soloClock node (i + 1)).merge (soloClock node (j + 1))).clock.toList =
      (soloClock node (i + 1)).clock.toList := by
    rw [merge, toList_soloClock j, List.foldl_cons, List.foldl_nil, mergeEntry,
      get_soloClock_self, max_eq_left hle]
    show SortedMap.insertEntry node _ (soloClock node (i + 1)).clock.toList = _
    rw [toList_soloClock i, SortedMap.insertEntry, if_neg (lt_irrefl node), if_pos rfl]
  -- a clock is its list of entries
  generalize (soloClock node (i + 1)).merge (soloClock node (j + 1)) = merged at hlist ⊢
  obtain ⟨⟨l, hl⟩⟩ := merged
  generalize soloClock node (i + 1) = own at hlist ⊢
  obtain ⟨⟨l', hl'⟩⟩ := own
  cases hlist
  rfl

/-- Merging a clock of the node that is not newer changes nothing. -/
theorem merge_soloClock {i j : Nat} (hji : j ≤ i) (hi : i < 2 ^ 64) :
    (soloClock node i).merge (soloClock node j) = soloClock node i := by
  cases j with
  | zero => rfl
  | succ j =>
    cases i with
    | zero => omega
    | succ i => exact merge_soloClock_succ (by omega) hi

/-- A count, a length, the id and a counter. -/
theorem length_serialize_soloClock (n : Nat) :
    (soloClock node (n + 1)).serialize.length = 16 + node.length := by
  rw [serialize, toList_soloClock]
  simp [serializeEntry]
  omega

theorem encodable_soloClock (hnode : 20 + node.length < 2 ^ 32) (n : Nat) :
    (soloClock node n).Encodable := by
  cases n with
  | zero => exact (by decide : empty.Encodable)
  | succ n =>
    unfold Encodable
    rw [length_serialize_soloClock]
    omega

end VectorClock

namespace LWWRegister

open VectorClock

/-- **A chain of writes.** The later of two registers of one node survives. With equal
clocks the left one stays, which does not matter as they are of one write. -/
theorem merge_solo {node : NodeID} {i j : Nat} (hi : i < 2 ^ 64) (hj : j < 2 ^ 64) (v w : Bytes) :
    (⟨v, soloClock node i⟩ : LWWRegister).merge ⟨w, soloClock node j⟩ =
      if i < j then ⟨w, soloClock node j⟩ else ⟨v, soloClock node i⟩ := by
  by_cases hij : i < j
  · rw [if_pos hij, merge_of_lt (soloClock_lt hij hj)]
  · have hji : j ≤ i := by omega
    rw [if_neg hij, merge_of_le (soloClock_le hji hi), merge_soloClock hji hi]

end LWWRegister

end Zenith
