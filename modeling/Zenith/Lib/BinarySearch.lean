import Zenith.Lib.Bytes

/-!
# Binary search

`search q left right` is the loop that halves `[left, right)`, going right where the test
holds and left where it fails. In `bsearch p left right` the test reads untrusted data, so
it may stop with a fault.

Nothing is assumed about the order of the tests: whatever they answer, the test holds just
below the result and fails at it. For a test that holds first and then no more this is the
one boundary there is, but a program may run the loop on data that is not sorted by what it
tests, and then it ends at some boundary among several. What such a program does can be
proved from the same rule.

Only the tests that are made have to answer. `Visits` lists the intervals that a search
comes to, without a reference to its result, and the tests in their middles are the ones
that matter.

Main results: `search_spec` and `bsearch_spec` for the boundary. `bsearch_ok_iff` says which
tests have to succeed for a search to end: those on the intervals it comes to (`Visits`).
-/

namespace BinarySearch

/-- The loop with a test that may fail. A fault ends it. -/
def bsearch (p : Nat → Except Fault Bool) (left right : Nat) : Except Fault Nat :=
  if left < right then
    match p ((left + right) / 2) with
    | .error f => .error f
    | .ok true => bsearch p ((left + right) / 2 + 1) right
    | .ok false => bsearch p left ((left + right) / 2)
  else .ok left
termination_by right - left

/-- The same loop with a test that has an answer everywhere. -/
def search (q : Nat → Bool) (left right : Nat) : Nat :=
  if left < right then
    if q ((left + right) / 2) then search q ((left + right) / 2 + 1) right
    else search q left ((left + right) / 2)
  else left
termination_by right - left

variable {p : Nat → Except Fault Bool} {q : Nat → Bool}

/-- The boundary a search ends at: the test holds just below it, unless it is
the left end, and fails at it, unless it is the right end. -/
theorem search_spec {left right : Nat} (hle : left ≤ right) :
    left ≤ search q left right ∧ search q left right ≤ right ∧
      (left < search q left right → q (search q left right - 1) = true) ∧
      (search q left right < right → q (search q left right) = false) := by
  induction hn : right - left using Nat.strong_induction_on generalizing left right with
  | _ n ih =>
  rw [search]
  by_cases hlt : left < right
  · rw [if_pos hlt]
    -- each half is shorter, and the test in the middle is the new end of the one that is kept
    cases hmid : q ((left + right) / 2) with
    | true =>
      rw [if_pos rfl]
      obtain ⟨hl, hr, hbelow, hat⟩ := ih (right - ((left + right) / 2 + 1)) (by omega)
        (show (left + right) / 2 + 1 ≤ right by omega) rfl
      generalize search q ((left + right) / 2 + 1) right = res at *
      refine ⟨by omega, hr, fun _ => ?_, hat⟩
      -- either the search moved on, or it stopped right above this test
      rcases Nat.lt_or_ge ((left + right) / 2 + 1) res with hgt | hge
      · exact hbelow hgt
      · rw [show res - 1 = (left + right) / 2 by omega]
        exact hmid
    | false =>
      rw [if_neg Bool.false_ne_true]
      obtain ⟨hl, hr, hbelow, hat⟩ := ih ((left + right) / 2 - left) (by omega)
        (show left ≤ (left + right) / 2 by omega) rfl
      generalize search q left ((left + right) / 2) = res at *
      refine ⟨hl, by omega, hbelow, fun _ => ?_⟩
      rcases Nat.lt_or_ge res ((left + right) / 2) with hgt | hge
      · exact hat hgt
      · rw [show res = (left + right) / 2 by omega]
        exact hmid
  · rw [if_neg hlt]
    exact ⟨le_rfl, hle, fun h => absurd h (lt_irrefl _), fun h => absurd h hlt⟩

/-- A test that answers on the whole interval makes the two loops the same. -/
theorem bsearch_eq_search {left right : Nat}
    (hp : ∀ i, left ≤ i → i < right → p i = .ok (q i)) :
    bsearch p left right = .ok (search q left right) := by
  induction hn : right - left using Nat.strong_induction_on generalizing left right with
  | _ n ih =>
  rw [bsearch, search]
  by_cases hlt : left < right
  · rw [if_pos hlt, if_pos hlt, hp _ (by omega) (by omega)]
    cases hmid : q ((left + right) / 2) with
    | true => exact ih _ (by omega) (fun i hi hi' => hp i (by omega) hi') rfl
    | false => exact ih _ (by omega) (fun i hi hi' => hp i hi (by omega)) rfl
  · rw [if_neg hlt, if_neg hlt]

/-- The boundary of a search whose tests all answer. -/
theorem bsearch_spec {left right : Nat} (hp : ∀ i, left ≤ i → i < right → p i = .ok (q i))
    (hle : left ≤ right) :
    ∃ res, bsearch p left right = .ok res ∧ left ≤ res ∧ res ≤ right ∧
      (left < res → q (res - 1) = true) ∧ (res < right → q res = false) :=
  ⟨_, bsearch_eq_search hp, search_spec hle⟩

/-- When every test holds, the search runs to the right end. -/
theorem bsearch_of_forall {left right : Nat} (hle : left ≤ right)
    (hp : ∀ i, left ≤ i → i < right → p i = .ok true) : bsearch p left right = .ok right := by
  obtain ⟨res, hres, hl, hr, -, hat⟩ := bsearch_spec (q := fun _ => true) hp hle
  rcases Nat.lt_or_ge res right with hlt | hge
  · exact absurd (hat hlt) (by simp)
  · rw [hres, show res = right by omega]

-- ---------------------------------------------------------------------------
-- The intervals a search comes to
-- ---------------------------------------------------------------------------

/-- A search of `[left, right)` comes to the interval `[l, r)`. -/
inductive Visits (p : Nat → Except Fault Bool) (left right : Nat) : Nat → Nat → Prop
  | start : Visits p left right left right
  | goRight {l r : Nat} (h : Visits p left right l r) (hlt : l < r)
      (hmid : p ((l + r) / 2) = .ok true) : Visits p left right ((l + r) / 2 + 1) r
  | goLeft {l r : Nat} (h : Visits p left right l r) (hlt : l < r)
      (hmid : p ((l + r) / 2) = .ok false) : Visits p left right l ((l + r) / 2)

variable {left right : Nat}

/-- What is left to do there is what is left of the whole search. -/
theorem Visits.bsearch_eq {l r : Nat} (h : Visits p left right l r) :
    bsearch p left right = bsearch p l r := by
  induction h with
  | start => rfl
  | goRight _ hlt hmid ih => rw [ih, bsearch, if_pos hlt, hmid]
  | goLeft _ hlt hmid ih => rw [ih, bsearch, if_pos hlt, hmid]

/-- The intervals lie in the whole one. -/
theorem Visits.bounds {l r : Nat} (h : Visits p left right l r) (hle : left ≤ right) :
    left ≤ l ∧ l ≤ r ∧ r ≤ right := by
  induction h with
  | start => exact ⟨le_rfl, hle, le_rfl⟩
  | goRight _ _ _ ih => omega
  | goLeft _ _ _ ih => omega

/-- From any interval that the search comes to, it goes on to its result. -/
theorem Visits.exists_result {l r : Nat} (h : Visits p left right l r) (hle : left ≤ right)
    (hp : ∀ l r, Visits p left right l r → l < r → ∃ b, p ((l + r) / 2) = .ok b) :
    ∃ res, bsearch p l r = .ok res ∧ Visits p left right res res := by
  induction hn : r - l using Nat.strong_induction_on generalizing l r with
  | _ n ih =>
  by_cases hlt : l < r
  · obtain ⟨b, hb⟩ := hp l r h hlt
    rw [bsearch, if_pos hlt, hb]
    cases b with
    | true => exact ih _ (by omega) (h.goRight hlt hb) rfl
    | false => exact ih _ (by omega) (h.goLeft hlt hb) rfl
  · obtain rfl : l = r := by have := h.bounds hle; omega
    exact ⟨l, by rw [bsearch, if_neg hlt], h⟩

/-- **When a search ends.** The test has to answer in the middle of every interval
that the search comes to; the last one is empty, at the result. -/
theorem bsearch_ok_iff (hle : left ≤ right) {P : Nat → Prop} :
    (∃ res, bsearch p left right = .ok res ∧ P res) ↔
      ∀ l r, Visits p left right l r →
        (l < r → ∃ b, p ((l + r) / 2) = .ok b) ∧ (l = r → P l) := by
  constructor
  · rintro ⟨res, hres, hP⟩ l r h
    rw [h.bsearch_eq, bsearch] at hres
    constructor
    · intro hlt
      rw [if_pos hlt] at hres
      cases hmid : p ((l + r) / 2) with
      | error f => rw [hmid] at hres; exact absurd hres (by simp)
      | ok b => exact ⟨b, rfl⟩
    · rintro rfl
      rw [if_neg (lt_irrefl l)] at hres
      exact Except.ok.inj hres ▸ hP
  · intro hall
    obtain ⟨res, hres, hvisits⟩ :=
      Visits.start.exists_result hle fun l r h hlt => (hall l r h).1 hlt
    exact ⟨res, hres, (hall res res hvisits).2 rfl⟩

/-- A search comes to its result. -/
theorem visits_result {res : Nat} (hle : left ≤ right) (h : bsearch p left right = .ok res) :
    Visits p left right res res := by
  have hall := (bsearch_ok_iff hle (P := fun _ => True)).mp ⟨res, h, trivial⟩
  obtain ⟨res', hres, hvisits⟩ := Visits.start.exists_result hle fun l r h => (hall l r h).1
  rwa [← Except.ok.inj (h.symm.trans hres)] at hvisits

end BinarySearch
