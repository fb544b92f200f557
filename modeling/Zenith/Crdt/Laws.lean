import Zenith.Crdt.Absorb

/-!
# Zenith — the laws of clocks and registers

The order that `compare` decides, said in components: clocks form a lattice up to explicit
zeros, with `merge` as join, and `increment` goes strictly up in it.

Registers are joined in their clocks only. Their merge absorbs both arguments from the left,
but it is commutative only where equal clocks carry equal values: of two registers with one
clock and two values each merge keeps its own side. Nor is it associative where values of
concurrent writes meet an overwrite of one of them, which is the subject of
`Zenith.Cluster.MergeOrder`.

The laws are for arbitrary clocks, with any ids and any counters, those near `2 ^ 64`
included. Only the step of `increment` has a condition, because a counter that is full
starts again at zero.

Main results: `vector_clock_lattice` and `register_merge_laws`.
-/

namespace Zenith

-- ---------------------------------------------------------------------------
-- Clocks
-- ---------------------------------------------------------------------------

namespace VectorClock

/-- `Equal` is pointwise equality. The maps may differ in entries that are zero. -/
theorem compare_eq_equal_iff {a b : VectorClock} :
    a.compare b = .equal ↔ ∀ n, a.get n = b.get n := by
  classical
  have hle : (a ≤ b ∧ b ≤ a) ↔ ∀ n, a.get n = b.get n :=
    ⟨fun h n => get_eq_of_le_of_le h.1 h.2 n, fun h => ⟨fun n => (h n).le, fun n => (h n).ge⟩⟩
  rw [← hle, compare_eq]
  by_cases h : a ≤ b <;> by_cases h' : b ≤ a <;> simp [h, h']

/-- The two strict answers are each other's mirror images. -/
theorem compare_eq_happensAfter_iff {a b : VectorClock} :
    a.compare b = .happensAfter ↔ b < a := by
  classical
  rw [compare_eq, lt_iff_le_not_ge]
  by_cases h : a ≤ b <;> by_cases h' : b ≤ a <;> simp [h, h']

/-- Counters are linearly ordered, so one that is not below is above. -/
theorem not_le_iff {a b : VectorClock} : ¬ a ≤ b ↔ ∃ n, b.get n < a.get n := by
  rw [le_iff, not_forall]
  exact exists_congr fun n => not_le

theorem lt_iff {a b : VectorClock} :
    a < b ↔ (∀ n, a.get n ≤ b.get n) ∧ ∃ n, a.get n < b.get n := by
  rw [lt_iff_le_not_ge, not_le_iff, le_iff]

/-- **Clocks are a lattice**, pointwise and with missing entries as 0: `compare`
decides its order, `merge` is its join, and `increment` goes up while the counter
does not wrap. -/
theorem vector_clock_lattice :
    (∀ a b : VectorClock, a.compare b = .equal ↔ ∀ n, a.get n = b.get n) ∧
      (∀ a b : VectorClock, a.compare b = .happensBefore ↔
        (∀ n, a.get n ≤ b.get n) ∧ ∃ n, a.get n < b.get n) ∧
      (∀ a b : VectorClock, a.compare b = .happensAfter ↔ b.compare a = .happensBefore) ∧
      (∀ a b : VectorClock, a.compare b = .concurrent ↔
        (∃ n, b.get n < a.get n) ∧ ∃ n, a.get n < b.get n) ∧
      (∀ a b c : VectorClock, a.compare b = .happensBefore → b.compare c = .happensBefore →
        a.compare c = .happensBefore) ∧
      (∀ a b : VectorClock, ∀ n, a.get n ≤ (a.merge b).get n ∧ b.get n ≤ (a.merge b).get n) ∧
      (∀ a b c : VectorClock, (∀ n, a.get n ≤ c.get n) → (∀ n, b.get n ≤ c.get n) →
        ∀ n, (a.merge b).get n ≤ c.get n) ∧
      ∀ (a : VectorClock) (n : NodeID), (a.get n).toNat < 2 ^ 64 - 1 →
        (a.increment n).compare a = .happensAfter := by
  refine ⟨fun a b => compare_eq_equal_iff, fun a b => ?_, fun a b => ?_, fun a b => ?_,
    fun a b c hab hbc => ?_, fun a b n => ⟨le_merge_left a b n, le_merge_right a b n⟩,
    fun a b c ha hb => merge_le ha hb, fun a n h => ?_⟩
  · rw [compare_eq_happensBefore_iff, lt_iff]
  · rw [compare_eq_happensAfter_iff, compare_eq_happensBefore_iff]
  · rw [compare_eq_concurrent_iff, not_le_iff, not_le_iff]
  · rw [compare_eq_happensBefore_iff] at hab hbc ⊢
    exact hab.trans hbc
  · rw [compare_eq_happensAfter_iff]
    exact lt_increment (by omega)

/-- Three clocks over different nodes, one of them with an explicit zero. -/
theorem vector_clock_lattice_three :
    let a : VectorClock := ⟨SortedMap.empty.insert [1] 0⟩
    let b : VectorClock := ⟨SortedMap.empty.insert [2] 5⟩
    let c : VectorClock := ⟨(SortedMap.empty.insert [2] 5).insert [3] 1⟩
    a.compare c = .happensBefore ∧ (∀ n, (a.merge b).get n ≤ c.get n) ∧
      (b.increment [2]).compare b = .happensAfter := by
  intro a b c
  obtain ⟨-, hbefore, -, -, htrans, -, hjoin, hincrement⟩ := vector_clock_lattice
  have hab : a.compare b = .happensBefore := by decide
  have hbc : b.compare c = .happensBefore := by decide
  have hac := htrans a b c hab hbc
  exact ⟨hac, hjoin a b c ((hbefore a c).mp hac).1 ((hbefore b c).mp hbc).1,
    hincrement b [2] (by decide)⟩

end VectorClock

-- ---------------------------------------------------------------------------
-- Registers
-- ---------------------------------------------------------------------------

namespace LWWRegister

/-- The clock of a merge does not depend on the side. -/
theorem get_clock_merge_comm (a b : LWWRegister) (n : NodeID) :
    (a.merge b).clock.get n = (b.merge a).clock.get n := by
  rw [get_clock_merge, get_clock_merge, max_comm]

/-- The value does not depend on it either, unless the clocks are equal and the
values are not. -/
theorem merge_comm {a b : LWWRegister}
    (h : (∀ n, a.clock.get n = b.clock.get n) → a.value = b.value) :
    (a.merge b).Same (b.merge a) := by
  refine ⟨?_, get_clock_merge_comm a b⟩
  by_cases hab : a.clock ≤ b.clock
  · by_cases hba : b.clock ≤ a.clock
    · rw [merge_of_le hba, merge_of_le hab]
      exact h fun n => VectorClock.get_eq_of_le_of_le hab hba n
    · rw [merge_of_lt (lt_of_le_not_ge hab hba), merge_of_le hab]
  · by_cases hba : b.clock ≤ a.clock
    · rw [merge_of_le hba, merge_of_lt (lt_of_le_not_ge hba hab)]
    · rw [merge_of_concurrent hab hba, merge_of_concurrent hba hab]
      exact max_comm _ _

/-- **The laws of merging.** The clock is the join in every case; the value is that of the
later side, or the larger of two concurrent ones; merging in a side again changes nothing;
and the sides can be exchanged unless equal clocks carry different values. -/
theorem register_merge_laws (a b : LWWRegister) :
    (∀ n, (a.merge b).clock.get n = max (a.clock.get n) (b.clock.get n)) ∧
      (a.clock.compare b.clock = .happensBefore → (a.merge b).value = b.value) ∧
      (b.clock.compare a.clock = .happensBefore → (a.merge b).value = a.value) ∧
      (a.clock.compare b.clock = .concurrent → (a.merge b).value = max a.value b.value) ∧
      ((a.merge b).merge a).Same (a.merge b) ∧ ((a.merge b).merge b).Same (a.merge b) ∧
      (a.merge (a.merge b)).Same (a.merge b) ∧ (a.merge a).Same a ∧
      (((∀ n, a.clock.get n = b.clock.get n) → a.value = b.value) →
        (a.merge b).Same (b.merge a)) := by
  refine ⟨get_clock_merge a b, fun h => ?_, fun h => ?_, fun h => ?_,
    same_merge_of_le (clock_le_merge_left a b), same_merge_of_le (clock_le_merge_right a b),
    (merge_absorbs_left a b).merge_right, same_merge_of_le le_rfl, merge_comm⟩
  · rw [merge_of_lt (VectorClock.compare_eq_happensBefore_iff.mp h)]
  · rw [merge_of_le (VectorClock.compare_eq_happensBefore_iff.mp h).le]
  · obtain ⟨hab, hba⟩ := VectorClock.compare_eq_concurrent_iff.mp h
    rw [merge_of_concurrent hab hba]

/-- Concurrent registers, a later one, and one that a clock with an explicit zero
makes equal to an empty one. -/
theorem register_merge_laws_cases :
    let a : LWWRegister := ⟨[1], ⟨SortedMap.empty.insert [65] 1⟩⟩
    let b : LWWRegister := ⟨[2], ⟨SortedMap.empty.insert [66] 1⟩⟩
    let c : LWWRegister := ⟨[], ⟨SortedMap.empty.insert [65] 0⟩⟩
    (a.merge b).value = [2] ∧ (c.merge a).value = [1] ∧ (a.merge c).value = [1] ∧
      (a.merge b).Same (b.merge a) ∧ (c.merge ⟨[], .empty⟩).Same (merge ⟨[], .empty⟩ c) := by
  intro a b c
  obtain ⟨-, -, -, hconcurrent, -, -, -, -, hcomm⟩ := register_merge_laws a b
  obtain ⟨-, hlater, -⟩ := register_merge_laws c a
  obtain ⟨-, -, hearlier, -⟩ := register_merge_laws a c
  have hempty := (register_merge_laws c ⟨[], .empty⟩).2.2.2.2.2.2.2.2 fun _ => rfl
  refine ⟨(hconcurrent (by decide)).trans (by decide), hlater (by decide), hearlier (by decide),
    hcomm fun h => ?_, hempty⟩
  exact absurd (h [65]) (by decide)

end LWWRegister

end Zenith
