import Zenith.Lib.BinarySearch

/-!
# Runs over bytes that may be anything

A program that reads a buffer it does not control can come to three ends: it returns, it
throws, or it does what it must not do, a read behind the buffer or arithmetic that leaves
its type. `Within throws run` says that the run does not come to the third end, and that it
comes to the second one only if `throws` allows it. So `Within True` is "returns or throws",
and `Within False` is "returns".

The rules are equivalences, one for each step such a program is made of. Read from left to
right they turn a statement about a run into one about the bytes, and nothing is lost on the
way: what comes out is what the bytes *have to be*, not only what they may be. A condition
that is sufficient and far from necessary would be easy to find, for instance that the bytes
were written by the right encoder.

A step behind another one counts only where the first one returns. In a loop this leads to a
condition that looks at the places which the loop comes to, and such a condition is computed
from the bytes by going through them in the same way.

Most steps cannot throw. For them both meanings of `Within` agree, and `NeverThrows` says so
once for each kind of step.

Main results:

* `within_bind_iff`: the part behind a step matters only where the step returns;
* `within_wrapping_iff`: a number that has wrapped must lead to an exception;
* `NeverThrows.within_iff`: for a step that cannot throw, `Within` is to return.
-/

namespace Bytes

variable {α β : Type} {throws : Prop}

/-- Returns, or throws where that is allowed. -/
def Within (throws : Prop) (run : Except Fault α) : Prop :=
  run.Post (fun _ => True) fun f => throws ∧ ∃ what, f = .thrown what

-- ---------------------------------------------------------------------------
-- The three ends
-- ---------------------------------------------------------------------------

@[simp] theorem within_ok (a : α) : Within throws (.ok a) ↔ True := Iff.rfl

@[simp] theorem within_pure (a : α) : Within throws (pure a : Except Fault α) ↔ True := Iff.rfl

/-- An exception is within bounds where it is allowed. -/
@[simp] theorem within_thrown (what : String) :
    Within throws (.error (.thrown what) : Except Fault α) ↔ throws :=
  ⟨And.left, fun h => ⟨h, what, rfl⟩⟩

@[simp] theorem not_within_outOfBounds :
    ¬ Within throws (.error .outOfBounds : Except Fault α) := by
  rintro ⟨-, what, h⟩
  cases h

@[simp] theorem not_within_overflow : ¬ Within throws (.error .overflow : Except Fault α) := by
  rintro ⟨-, what, h⟩
  cases h

/-- Where no exception is allowed there is a result. -/
theorem within_false_iff {run : Except Fault α} : Within False run ↔ ∃ a, run = .ok a := by
  cases run with
  | ok a => simp
  | error f =>
    refine iff_of_false (fun h => h.1) ?_
    rintro ⟨a, h⟩
    cases h

/-- More exceptions may be allowed. -/
theorem Within.mono {throws' : Prop} {run : Except Fault α} (h : Within throws run)
    (himp : throws → throws') : Within throws' run := by
  cases run with
  | ok a => trivial
  | error f => exact h.imp_left himp

-- ---------------------------------------------------------------------------
-- Steps
-- ---------------------------------------------------------------------------

/-- **A sequence.** The second part matters only where the first one returns. -/
theorem within_bind_iff {run : Except Fault α} {next : α → Except Fault β} :
    Within throws (run >>= next) ↔
      Within throws run ∧ ∀ a, run = .ok a → Within throws (next a) := by
  cases run with
  | ok a =>
    rw [Except.ok_bind]
    exact ⟨fun h => ⟨trivial, fun b hb => Except.ok.inj hb ▸ h⟩, fun h => h.2 a rfl⟩
  | error f =>
    rw [Except.error_bind]
    exact ⟨fun h => ⟨h, fun b hb => by cases hb⟩, And.left⟩

/-- A function of the result does not matter. -/
theorem within_map_iff {run : Except Fault α} {f : α → β} :
    Within throws (run.map f) ↔ Within throws run := by
  cases run <;> exact Iff.rfl

/-- A slice has to lie inside the buffer. -/
theorem within_slice_iff {buf : Bytes} {off len : Nat} :
    Within throws (slice buf off len) ↔ off + len ≤ buf.length := by
  unfold slice
  split
  · next h => simp [h]
  · next h => simp [h]

/-- So has a number. -/
theorem within_readLE_iff {w : Nat} {buf : Bytes} {off : Nat} :
    Within throws (readLE w buf off) ↔ off + w ≤ buf.length := by
  rw [readLE, within_map_iff, within_slice_iff]

/-- A number is read, and the run goes on with it. -/
theorem within_readLE_bind_iff {w : Nat} {buf : Bytes} {off : Nat} {next : Nat → Except Fault β} :
    Within throws (readLE w buf off >>= next) ↔
      off + w ≤ buf.length ∧ Within throws (next (leAt w buf off)) := by
  rw [within_bind_iff, within_readLE_iff]
  refine and_congr_right fun hle => ?_
  simp [readLE_ok_iff, hle]

/-- **A number that may have wrapped**: where it has, the run may not return. -/
theorem within_wrapping_iff {fits : Prop} [Decidable fits] {run : Except Fault α} :
    Within throws (wrapping fits run) ↔
      Within throws run ∧ (¬ fits → ¬ ∃ a, run = .ok a) := by
  unfold wrapping
  split
  · next h => simp [h]
  · next h =>
    rw [within_bind_iff]
    refine and_congr_right fun _ => ⟨?_, fun hnone a ha => absurd ⟨a, ha⟩ (hnone h)⟩
    rintro hall - ⟨a, ha⟩
    exact not_within_overflow (hall a ha)

-- ---------------------------------------------------------------------------
-- Steps that cannot throw
-- ---------------------------------------------------------------------------

/-- Reads of a buffer and arithmetic on lengths: they return or are wrong. -/
def NeverThrows (run : Except Fault α) : Prop := ∀ what, run ≠ .error (.thrown what)

theorem NeverThrows.within_iff {run : Except Fault α} (h : NeverThrows run) :
    Within throws run ↔ ∃ a, run = .ok a := by
  cases run with
  | ok a => simp
  | error f =>
    refine iff_of_false ?_ ?_
    · rintro ⟨-, what, rfl⟩
      exact h what rfl
    · rintro ⟨a, ha⟩
      cases ha

theorem NeverThrows.ok (a : α) : NeverThrows (.ok a) := fun what h => by cases h

/-- A sequence of steps that cannot throw. -/
theorem NeverThrows.bind {run : Except Fault α} {next : α → Except Fault β}
    (hrun : NeverThrows run) (hnext : ∀ a, NeverThrows (next a)) : NeverThrows (run >>= next) := by
  cases run with
  | ok a => exact hnext a
  | error f =>
    intro what h
    exact hrun what (congrArg Except.error (Except.error.inj h))

theorem slice_neverThrows (buf : Bytes) (off len : Nat) : NeverThrows (slice buf off len) := by
  intro what
  unfold slice
  split <;> simp

theorem readLE_neverThrows (w : Nat) (buf : Bytes) (off : Nat) :
    NeverThrows (readLE w buf off) := by
  intro what h
  cases hslice : slice buf off w with
  | ok b => simp [readLE, hslice, Except.map] at h
  | error f =>
    rw [readLE, hslice] at h
    exact slice_neverThrows buf off w what (hslice.trans (congrArg Except.error
      (Except.error.inj h)))

/-- Nor does a difference. -/
theorem subLen_neverThrows (a b : Nat) : NeverThrows (subLen a b) := by
  intro what
  unfold subLen
  split <;> simp

/-- Nor does a search whose tests do not. -/
theorem bsearch_neverThrows {p : Nat → Except Fault Bool} (hp : ∀ i, NeverThrows (p i))
    (left right : Nat) : NeverThrows (BinarySearch.bsearch p left right) := by
  induction left, right using BinarySearch.bsearch.induct (p := p) with
  | case1 left right hlt f hf =>
    rw [BinarySearch.bsearch, if_pos hlt, hf]
    exact fun what h => hp _ what (hf.trans (congrArg Except.error (Except.error.inj h)))
  | case2 left right hlt hmid ih =>
    rw [BinarySearch.bsearch, if_pos hlt, hmid]
    exact ih
  | case3 left right hlt hmid ih =>
    rw [BinarySearch.bsearch, if_pos hlt, hmid]
    exact ih
  | case4 left right hge =>
    rw [BinarySearch.bsearch, if_neg hge]
    exact .ok _

end Bytes
