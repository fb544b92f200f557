import Zenith.Crdt.VectorClock

/-!
# Zenith — last-write-wins registers

The register of `crdt.h`: a value together with the clock of the write it comes from.
`merge` keeps the causally later value; between concurrent values it keeps the
lexicographically larger one.

The clock of a merge is equivalent to the join of both clocks in every branch
(`get_clock_merge`), and its value is one of the two values (`value_merge`). Which of the
two depends on how the clocks compare: `merge_of_lt`, `merge_of_le` and
`merge_of_concurrent`. The three lemmas are what all later modules use, so that the `switch`
of the source is taken apart only here.

The source has an assignment for the later side, which replaces the clock as well, and a
`merge` of the clocks in the other branches. They differ in entries that are zero and in
nothing that can be read, hence the relation `Same`. An empty value is a tombstone; the
merge itself does not treat it apart, and it loses to every concurrent value because it is
the smallest.
-/

namespace Zenith

/-- A value and the clock of its write. -/
structure LWWRegister where
  value : Bytes
  clock : VectorClock
  deriving DecidableEq

namespace LWWRegister

/-- Merges `other` into the register. -/
def merge (r other : LWWRegister) : LWWRegister :=
  match r.clock.compare other.clock with
  | .happensBefore => ⟨other.value, other.clock⟩
  | .concurrent =>
    ⟨if other.value > r.value then other.value else r.value, r.clock.merge other.clock⟩
  | .happensAfter | .equal => ⟨r.value, r.clock.merge other.clock⟩

/-- Registers no reader can tell apart: equal values and pointwise equal clocks. -/
def Same (r s : LWWRegister) : Prop := r.value = s.value ∧ ∀ n, r.clock.get n = s.clock.get n

theorem Same.symm {r s : LWWRegister} (h : r.Same s) : s.Same r := ⟨h.1.symm, fun n => (h.2 n).symm⟩

variable {r o : LWWRegister}

/-- A strictly newer register replaces the old one. -/
theorem merge_of_lt (h : r.clock < o.clock) : r.merge o = o := by
  rw [merge, VectorClock.compare_eq_happensBefore_iff.mpr h]

/-- A register that is newer or equal keeps its value. -/
theorem merge_of_le (h : o.clock ≤ r.clock) :
    r.merge o = ⟨r.value, r.clock.merge o.clock⟩ := by
  classical
  rw [merge, VectorClock.compare_eq]
  by_cases h' : r.clock ≤ o.clock <;> simp [h, h']

/-- Between concurrent registers the larger value wins. -/
theorem merge_of_concurrent (h : ¬ r.clock ≤ o.clock) (h' : ¬ o.clock ≤ r.clock) :
    r.merge o = ⟨max r.value o.value, r.clock.merge o.clock⟩ := by
  rw [merge, VectorClock.compare_eq_concurrent_iff.mpr ⟨h, h'⟩]
  by_cases hv : o.value > r.value
  · simp [hv, max_eq_right hv.le]
  · simp [hv, max_eq_left (not_lt.mp hv)]

/-- The clock of a merge is the pointwise maximum in every branch. -/
theorem get_clock_merge (r o : LWWRegister) (n : NodeID) :
    (r.merge o).clock.get n = max (r.clock.get n) (o.clock.get n) := by
  by_cases hlt : r.clock < o.clock
  · rw [merge_of_lt hlt, max_eq_right (hlt.le n)]
  · by_cases hle : o.clock ≤ r.clock
    · rw [merge_of_le hle, VectorClock.get_merge]
    · have hnot : ¬ r.clock ≤ o.clock := fun h => hlt (lt_of_le_not_ge h hle)
      rw [merge_of_concurrent hnot hle, VectorClock.get_merge]

/-- A merge has seen what its left side has seen. -/
theorem clock_le_merge_left (r o : LWWRegister) : r.clock ≤ (r.merge o).clock := fun n => by
  rw [get_clock_merge]
  exact le_max_left _ _

/-- So it has of its right side. -/
theorem clock_le_merge_right (r o : LWWRegister) : o.clock ≤ (r.merge o).clock := fun n => by
  rw [get_clock_merge]
  exact le_max_right _ _

/-- The clock of a merge is the least above both. -/
theorem clock_merge_le {c : VectorClock} (hr : r.clock ≤ c) (ho : o.clock ≤ c) :
    (r.merge o).clock ≤ c := fun n => by
  rw [get_clock_merge]
  exact max_le (hr n) (ho n)

/-- A merge invents no value. -/
theorem value_merge (r o : LWWRegister) :
    (r.merge o).value = r.value ∨ (r.merge o).value = o.value := by
  by_cases hlt : r.clock < o.clock
  · exact Or.inr (by rw [merge_of_lt hlt])
  · by_cases hle : o.clock ≤ r.clock
    · exact Or.inl (by rw [merge_of_le hle])
    · have hnot : ¬ r.clock ≤ o.clock := fun h => hlt (lt_of_le_not_ge h hle)
      rw [merge_of_concurrent hnot hle]
      exact max_choice r.value o.value

/-- A merge of two live registers is live, since its value is one of theirs. -/
theorem value_merge_ne_nil (hr : r.value ≠ []) (ho : o.value ≠ []) : (r.merge o).value ≠ [] := by
  rcases value_merge r o with h | h <;> rw [h] <;> assumption

end LWWRegister

end Zenith
