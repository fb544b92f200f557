import Zenith.Crdt.LWWRegister

/-!
# Zenith — registers that absorb others

A register absorbs another one when it is causally later, or when no reader can tell them
apart. Merging the two, in either order, then gives the absorbing one. So of versions that
form a chain, any merge in any order is one of them, and a merge that reaches the top of the
chain is the top.

Concurrent versions have no such rule: their merge is neither of them, and a third register
with the joined clock need not absorb it.

This is what makes reads of a layered database agree. A point read stops at the first
version it finds, a scan merges all of them; both show the same when each version absorbs
the older ones. The order of versions in `Zenith.DB.Versions` is this relation along the
layers, and anti-entropy rests on `merge_absorbs_left`: a node that has merged a register
absorbs it, whatever it held before.

Everything here is up to `Same`, since two encodings of one clock may differ in counters
that are zero.
-/

namespace Zenith

namespace LWWRegister

theorem Same.refl (r : LWWRegister) : r.Same r := ⟨rfl, fun _ => rfl⟩

theorem Same.trans {r s t : LWWRegister} (h : r.Same s) (h' : s.Same t) : r.Same t :=
  ⟨h.1.trans h'.1, fun n => (h.2 n).trans (h'.2 n)⟩

/-- Registers that no reader can tell apart have clocks below each other. -/
theorem Same.le {r s : LWWRegister} (h : r.Same s) : r.clock ≤ s.clock := fun n => (h.2 n).le

/-- Equal values under clocks that are below each other. -/
theorem same_of_le_of_le {r s : LWWRegister} (hvalue : r.value = s.value) (hle : r.clock ≤ s.clock)
    (hge : s.clock ≤ r.clock) : r.Same s :=
  ⟨hvalue, VectorClock.get_eq_of_le_of_le hle hge⟩

/-- `r` is causally later than `u`, or cannot be told from it. -/
def Absorbs (r u : LWWRegister) : Prop := u.clock < r.clock ∨ r.Same u

instance (r s : LWWRegister) : Decidable (r.Same s) :=
  decidable_of_iff (r.value = s.value ∧ r.clock ≤ s.clock ∧ s.clock ≤ r.clock)
    ⟨fun h => same_of_le_of_le h.1 h.2.1 h.2.2, fun h => ⟨h.1, h.le, h.symm.le⟩⟩

instance (r u : LWWRegister) : Decidable (r.Absorbs u) :=
  inferInstanceAs (Decidable (u.clock < r.clock ∨ r.Same u))

theorem Absorbs.refl (r : LWWRegister) : r.Absorbs r := .inr (.refl r)

/-- What absorbs has seen at least as much. -/
theorem Absorbs.le {r u : LWWRegister} (h : r.Absorbs u) : u.clock ≤ r.clock := by
  rcases h with hlt | hsame
  · exact hlt.le
  · exact hsame.symm.le

/-- Absorption does not see the difference between registers that readers cannot tell
apart. -/
theorem Absorbs.congr {r r' u u' : LWWRegister} (h : r.Absorbs u) (hr : r.Same r')
    (hu : u.Same u') : r'.Absorbs u' := by
  rcases h with hlt | hsame
  · exact .inl (lt_of_le_of_lt hu.symm.le (lt_of_lt_of_le hlt hr.le))
  · exact .inr (hr.symm.trans (hsame.trans hu))

/-- Absorption is transitive, so it has to be shown for neighbouring versions only. -/
theorem Absorbs.trans {r s u : LWWRegister} (h : r.Absorbs s) (h' : s.Absorbs u) : r.Absorbs u := by
  rcases h with hlt | hsame
  · exact .inl (lt_of_le_of_lt h'.le hlt)
  · exact h'.congr hsame.symm (.refl u)

/-- What absorbs and is below cannot be told apart. -/
theorem Absorbs.same_of_le {r u : LWWRegister} (h : r.Absorbs u) (hle : r.clock ≤ u.clock) :
    r.Same u := by
  rcases h with hlt | hsame
  · exact absurd hle hlt.not_ge
  · exact hsame

/-- Merging in what is not newer changes nothing. -/
theorem same_merge_of_le {r u : LWWRegister} (h : u.clock ≤ r.clock) : (r.merge u).Same r := by
  rw [merge_of_le h]
  refine ⟨rfl, fun n => ?_⟩
  rw [VectorClock.get_merge]
  exact max_eq_left (h n)

/-- Merging in what is absorbed changes nothing. -/
theorem Absorbs.merge_left {r u : LWWRegister} (h : r.Absorbs u) : (r.merge u).Same r :=
  same_merge_of_le h.le

/-- Merging in what absorbs gives it. -/
theorem Absorbs.merge_right {r u : LWWRegister} (h : r.Absorbs u) : (u.merge r).Same r := by
  rcases h with hlt | hsame
  · rw [merge_of_lt hlt]
    exact .refl r
  · rw [merge_of_le hsame.le]
    refine ⟨hsame.1.symm, fun n => ?_⟩
    rw [VectorClock.get_merge, hsame.2 n]
    exact max_self _

/-- A merge absorbs its left side: it is that side with a larger clock, or it is strictly
later. In `put_crdt` the incoming register is on this side. -/
theorem merge_absorbs_left (i v : LWWRegister) : (i.merge v).Absorbs i := by
  by_cases hle : v.clock ≤ i.clock
  · exact .inr (same_merge_of_le hle)
  · exact .inl (lt_of_le_not_ge (clock_le_merge_left i v) fun hge =>
      hle ((clock_le_merge_right i v).trans hge))

/-- A merge absorbs its right side, unless the clocks are equal and the values are not. Then
the merge keeps the left value under a clock that is not later, and a reader could tell. -/
theorem merge_absorbs_right {i v : LWWRegister}
    (h : i.clock ≤ v.clock → v.clock ≤ i.clock → i.value = v.value) : (i.merge v).Absorbs v := by
  by_cases hlt : i.clock < v.clock
  · rw [merge_of_lt hlt]
    exact .refl v
  · by_cases hle : v.clock ≤ i.clock
    · by_cases hge : i.clock ≤ v.clock
      · exact .inr ((Absorbs.merge_left (.inr (same_of_le_of_le (h hge hle) hge hle))).trans
          (same_of_le_of_le (h hge hle) hge hle))
      · exact .inl (lt_of_lt_of_le (lt_of_le_not_ge hle hge) (clock_le_merge_left i v))
    · -- concurrent: the joined clock is above both
      have hnot : ¬ i.clock ≤ v.clock := fun hge => hlt (lt_of_le_not_ge hge hle)
      refine .inl (lt_of_le_not_ge (clock_le_merge_right i v) fun hge => ?_)
      exact hnot ((clock_le_merge_left i v).trans hge)

end LWWRegister

end Zenith
