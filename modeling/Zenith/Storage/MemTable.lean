import Zenith.Lib.Bytes
import Zenith.Lib.SortedMap

/-!
# Zenith — the memtable

The in-memory table of `memtable.h`. The skip list behind it is represented by its content,
a sorted map: `Insert` sets a key, `Get` looks one up and the iterator visits the entries in
key order. That the skip list of the source is such a map is proved apart from this, where
the pointers are modelled.

Next to its entries the table keeps the smallest and the largest key ever inserted; readers
skip a table whose range excludes the key. That every key is within the range is a field of
the structure, so a memtable that would be skipped by mistake cannot be built.

A removal is the insertion of the empty value. The memtable itself makes no difference
between the two; it is the database that takes an empty value for absence, and `probe`
models how it does.

Main results: `probe_eq` (skipping by range loses nothing) and `scan_eq` (a scan is the
sublist of the entries in range).
-/

namespace Zenith

/-- A memtable: its entries and its range. -/
structure MemTable where
  table : SortedMap Bytes Bytes
  hasRange : Bool
  minKey : Bytes
  maxKey : Bytes
  range_ok : ∀ e ∈ table.toList, hasRange = true ∧ minKey ≤ e.1 ∧ e.1 ≤ maxKey

namespace MemTable

/-- Without entries and without a range. -/
def new : MemTable := ⟨SortedMap.empty, false, [], [], fun _ h => absurd h List.not_mem_nil⟩

/-- The range of `update_range`: whether there is one, its smallest and its
largest key. -/
def updateRange (mt : MemTable) (key : Bytes) : Bool × Bytes × Bytes :=
  if mt.hasRange = false then (true, key, key)
  else (true, if key < mt.minKey then key else mt.minKey,
    if key > mt.maxKey then key else mt.maxKey)

/-- The range covers the new key, and it was widened only. -/
theorem updateRange_ok (mt : MemTable) (key value : Bytes) :
    ∀ e ∈ (mt.table.insert key value).toList, (mt.updateRange key).1 = true ∧
      (mt.updateRange key).2.1 ≤ e.1 ∧ e.1 ≤ (mt.updateRange key).2.2 := by
  intro e he
  -- an old entry keeps its place in the widened range
  have hold : e ∈ mt.table.toList → (mt.updateRange key).1 = true ∧
      (mt.updateRange key).2.1 ≤ e.1 ∧ e.1 ≤ (mt.updateRange key).2.2 := by
    intro he
    obtain ⟨hrange, hmin, hmax⟩ := mt.range_ok e he
    rw [updateRange, if_neg (by rw [hrange]; simp)]
    refine ⟨rfl, ?_, ?_⟩
    · show (if key < mt.minKey then key else mt.minKey) ≤ e.1
      split
      · next hlt => exact hlt.le.trans hmin
      · exact hmin
    · show e.1 ≤ if key > mt.maxKey then key else mt.maxKey
      split
      · next hgt => exact hmax.trans hgt.le
      · exact hmax
  -- the first key is the whole range
  rcases SortedMap.mem_insertEntry he with rfl | he
  · unfold updateRange
    split
    · exact ⟨rfl, le_rfl, le_rfl⟩
    · refine ⟨rfl, ?_, ?_⟩
      · show (if key < mt.minKey then key else mt.minKey) ≤ key
        split
        · exact le_rfl
        · next h => exact not_lt.mp h
      · show key ≤ if key > mt.maxKey then key else mt.maxKey
        split
        · exact le_rfl
        · next h => exact not_lt.mp h
  · exact hold he

/-- `put` -/
def put (mt : MemTable) (key value : Bytes) : MemTable :=
  ⟨mt.table.insert key value, (mt.updateRange key).1, (mt.updateRange key).2.1,
    (mt.updateRange key).2.2, mt.updateRange_ok key value⟩

/-- Deletes a key by inserting a tombstone, the empty value. -/
def remove (mt : MemTable) (key : Bytes) : MemTable := mt.put key []

/-- `get`: a tombstone is found, as the empty value. -/
def get (mt : MemTable) (key : Bytes) : Option Bytes := mt.table.get? key

/-- The entries from `start` on, up to `stop`. -/
def scan (mt : MemTable) (start stop : Bytes) : List (Bytes × Bytes) :=
  if start > stop then []
  else (mt.table.toList.dropWhile fun e => decide (e.1 < start)).takeWhile
    fun e => !decide (e.1 > stop)

/-- `sorted_entries`, as a flush writes them. -/
def sortedEntries (mt : MemTable) : List (Bytes × Bytes) := mt.table.toList

/-- How `ZenithDB::get_crdt` asks one memtable: not at all outside its range, and
an empty value counts as absent. -/
def probe (mt : MemTable) (key : Bytes) : Option Bytes :=
  if mt.hasRange = true ∧ mt.minKey ≤ key ∧ key ≤ mt.maxKey then
    match mt.get key with
    | some v => if v = [] then none else some v
    | none => none
  else none

@[simp] theorem get_new (key : Bytes) : new.get key = none := rfl

/-- The key has the value put, and the others theirs. -/
theorem get_put (mt : MemTable) (key value key' : Bytes) :
    (mt.put key value).get key' = if key' = key then some value else mt.get key' := by
  show (mt.table.insert key value).get? key' = _
  rw [SortedMap.get?_insert]
  by_cases h : key' = key
  · rw [if_pos h, if_pos h]
  · rw [if_neg h, if_neg h]
    rfl

@[simp] theorem get_put_self (mt : MemTable) (key value : Bytes) :
    (mt.put key value).get key = some value := by simp [get_put]

/-- Skipping a table by its range loses nothing. -/
theorem probe_eq (mt : MemTable) (key : Bytes) :
    mt.probe key = (mt.get key).filter fun v => decide (v ≠ []) := by
  unfold probe
  cases hget : mt.get key with
  | none => split <;> rfl
  | some v =>
    have hrange := mt.range_ok (key, v) (SortedMap.get?_eq_some_iff.mp hget)
    rw [if_pos hrange]
    -- outside the range there is no entry to miss
    by_cases hv : v = [] <;> simp [hv, Option.filter]

/-- A value that is there is found, whatever the range. -/
theorem probe_of_get {mt : MemTable} {key v : Bytes} (h : mt.get key = some v) (hv : v ≠ []) :
    mt.probe key = some v := by
  rw [probe_eq, h]
  simp [Option.filter, hv]

/-- A key that is not there is not found. -/
theorem probe_eq_none_of_get {mt : MemTable} {key : Bytes} (h : mt.get key = none) :
    mt.probe key = none := by
  rw [probe_eq, h]
  rfl

/-- What is found is there. -/
theorem get_of_probe {mt : MemTable} {key v : Bytes} (h : mt.probe key = some v) :
    mt.get key = some v := by
  rw [probe_eq, Option.filter_eq_some_iff] at h
  exact h.1

/-- The entries from `start` on, up to the first one above `stop`. -/
theorem takeWhile_filter_eq {es : List (Bytes × Bytes)} (hsorted : es.Pairwise fun a b => a.1 < b.1)
    (start stop : Bytes) :
    (es.filter fun e => decide (start ≤ e.1)).takeWhile (fun e => !decide (e.1 > stop)) =
      es.filter fun e => decide (start ≤ e.1) && decide (e.1 ≤ stop) := by
  have hdown : ∀ a b : Bytes × Bytes, a.1 < b.1 → (!decide (b.1 > stop)) = true →
      (!decide (a.1 > stop)) = true := by
    intro a b hab hb
    simp only [Bool.not_eq_true', decide_eq_false_iff_not, gt_iff_lt, not_lt] at hb ⊢
    exact hab.le.trans hb
  rw [List.takeWhile_eq_filter (hsorted.filter _) hdown, List.filter_filter]
  refine List.filter_congr fun e _ => ?_
  rw [Bool.and_comm, Bool.eq_iff_iff]
  simp only [Bool.and_eq_true, Bool.not_eq_true', decide_eq_true_eq, decide_eq_false_iff_not,
    gt_iff_lt, not_lt]

/-- In ascending entries those below `start` come first. -/
theorem dropWhile_eq {es : List (Bytes × Bytes)} (hsorted : es.Pairwise fun a b => a.1 < b.1)
    (start : Bytes) :
    (es.dropWhile fun e => decide (e.1 < start)) = es.filter fun e => decide (start ≤ e.1) := by
  have hdown : ∀ a b : Bytes × Bytes, a.1 < b.1 → decide (b.1 < start) = true →
      decide (a.1 < start) = true := by
    intro a b hab hb
    rw [decide_eq_true_eq] at hb ⊢
    exact hab.trans hb
  rw [List.dropWhile_eq_filter hsorted hdown]
  refine List.filter_congr fun e _ => ?_
  rw [Bool.eq_iff_iff]
  simp only [Bool.not_eq_true', decide_eq_true_eq, decide_eq_false_iff_not, not_lt]

/-- A scan is the sublist of the entries in range. -/
theorem scan_eq (mt : MemTable) (start stop : Bytes) :
    mt.scan start stop =
      mt.sortedEntries.filter fun e => decide (start ≤ e.1) && decide (e.1 ≤ stop) := by
  unfold scan
  split
  · next hgt =>
    symm
    rw [List.filter_eq_nil_iff]
    intro e _ hin
    rw [Bool.and_eq_true, decide_eq_true_eq, decide_eq_true_eq] at hin
    exact absurd (hin.1.trans hin.2) hgt.not_ge
  · rw [dropWhile_eq mt.table.sorted]
    exact takeWhile_filter_eq mt.table.sorted start stop

end MemTable

end Zenith
