import Zenith.Lib.SortedMap

/-!
# Towers of chains

A tower is a family of lists, one for each level, in which every level is a sublist of the
one below and level 0 ascends strictly by key: what the pointers of a skip list spell, apart
from the pointers. Both facts are fields of the structure.

A search goes right as long as a test holds and then down. For a test that holds on smaller
keys wherever it holds (`Downward`), each level falls into the part that the search passes
and the rest (`level_eq`), and what is passed at a level is passed at every level below
(`passed_sublist`). So a search that starts at the top ends at the right place of level 0,
whatever the heights of the elements are. Heights are drawn at random in a skip list, and
nothing that is proved here depends on them.

`insert` puts a new element at its place in the lowest `n` levels, for any `n`: it stays a
tower while the levels are linked one after the other. At level 0 that is the insertion of a
sorted map (`insertEntry_between`). A reader that comes between two links meets one of these
towers.
-/

namespace List

variable {α : Type*}

/-- The places in a list around a seam. -/
theorem split_at_seam {l r a b : List α} {p x z : α} (h : l ++ p :: x :: r = a ++ z :: b) :
    (∃ c, l = a ++ z :: c ∧ b = c ++ p :: x :: r) ∨ (z = p ∧ b = x :: r) ∨ (z = x ∧ b = r) ∨
      ∃ c, r = c ++ z :: b := by
  rcases append_eq_append_iff.mp h with ⟨c, rfl, hc⟩ | ⟨c, rfl, hc⟩
  · match c, hc with
    | [], hc => exact .inr (.inl ⟨(cons_eq_cons.mp hc).1.symm, (cons_eq_cons.mp hc).2.symm⟩)
    | [_], hc =>
      obtain ⟨-, hc⟩ := cons_eq_cons.mp hc
      exact .inr (.inr (.inl ⟨(cons_eq_cons.mp hc).1.symm, (cons_eq_cons.mp hc).2.symm⟩))
    | _ :: _ :: c, hc =>
      obtain ⟨-, hc⟩ := cons_eq_cons.mp hc
      exact .inr (.inr (.inr ⟨c, (cons_eq_cons.mp hc).2⟩))
  · match c, hc with
    | [], hc => exact .inr (.inl ⟨(cons_eq_cons.mp hc).1, (cons_eq_cons.mp hc).2⟩)
    | y :: c, hc =>
      obtain ⟨hz, hb⟩ := cons_eq_cons.mp hc
      exact .inl ⟨c, hz ▸ rfl, hb⟩

end List

namespace SortedMap

variable {κ ν : Type*} [LinearOrder κ]

/-- An insertion between the entries below a key and those above it. -/
theorem insertEntry_between {k : κ} (v : ν) {l r : List (κ × ν)} (hl : ∀ e ∈ l, e.1 < k)
    (hr : ∀ e ∈ r, k < e.1) : insertEntry k v (l ++ r) = l ++ (k, v) :: r := by
  induction l with
  | nil =>
    cases r with
    | nil => rfl
    | cons e r => rw [List.nil_append, insertEntry, if_pos (hr e (List.mem_cons_self ..))]; rfl
  | cons e l ih =>
    obtain ⟨he, hrest⟩ := List.forall_mem_cons.mp hl
    rw [List.cons_append, insertEntry, if_neg he.not_gt, if_neg he.ne', ih hrest, List.cons_append]

/-- An insertion at a key that is there replaces its value. -/
theorem insertEntry_at {k : κ} (v w : ν) {l r : List (κ × ν)} (hl : ∀ e ∈ l, e.1 < k) :
    insertEntry k v (l ++ (k, w) :: r) = l ++ (k, v) :: r := by
  induction l with
  | nil => rw [List.nil_append, insertEntry, if_neg (lt_irrefl k), if_pos rfl]; rfl
  | cons e l ih =>
    obtain ⟨he, hrest⟩ := List.forall_mem_cons.mp hl
    rw [List.cons_append, insertEntry, if_neg he.not_gt, if_neg he.ne', ih hrest, List.cons_append]

end SortedMap

/-- Chains over each other, ascending by key. -/
structure Tower (α : Type*) {κ : Type*} [LinearOrder κ] (key : α → κ) where
  level : ℕ → List α
  sub : ∀ i, (level (i + 1)).Sublist (level i)
  asc : (level 0).Pairwise fun a b => key a < key b

namespace Tower

variable {α κ : Type*} [LinearOrder κ] {key : α → κ}

/-- A level is part of every level below it. -/
theorem sublist_of_le (t : Tower α key) {i j : ℕ} (h : i ≤ j) :
    (t.level j).Sublist (t.level i) := by
  induction j, h using Nat.le_induction with
  | base => exact List.Sublist.refl _
  | succ j _ ih => exact (t.sub j).trans ih

/-- Every element is in level 0. -/
theorem mem_zero (t : Tower α key) {i : ℕ} {a : α} (h : a ∈ t.level i) : a ∈ t.level 0 :=
  (t.sublist_of_le (Nat.zero_le i)).subset h

/-- Every level ascends. -/
theorem asc_level (t : Tower α key) (i : ℕ) :
    (t.level i).Pairwise fun a b => key a < key b :=
  t.asc.sublist (t.sublist_of_le (Nat.zero_le i))

/-! ## What a search passes -/

/-- A test that holds on smaller keys wherever it holds. -/
def Downward (p : κ → Bool) : Prop := ∀ a b, a < b → p b = true → p a = true

/-- The test for smaller keys. -/
def before (k : κ) : κ → Bool := fun k' => decide (k' < k)

@[simp] theorem before_eq_true {k k' : κ} : before k k' = true ↔ k' < k := decide_eq_true_iff

@[simp] theorem before_eq_false {k k' : κ} : before k k' = false ↔ k ≤ k' :=
  decide_eq_false_iff_not.trans not_lt

theorem downward_before (k : κ) : Downward (before k) := by
  intro a b hab hb
  rw [before_eq_true] at hb ⊢
  exact hab.trans hb

theorem downward_true : Downward fun _ : κ => true := fun _ _ _ _ => rfl

/-- The elements of a level that a search passes. -/
def passed (t : Tower α key) (p : κ → Bool) (i : ℕ) : List α :=
  (t.level i).filter fun a => p (key a)

/-- Those it does not. -/
def rest (t : Tower α key) (p : κ → Bool) (i : ℕ) : List α :=
  (t.level i).filter fun a => !p (key a)

variable {p : κ → Bool}

/-- What a search passes comes first. -/
theorem level_eq (t : Tower α key) (hp : Downward p) (i : ℕ) :
    t.level i = t.passed p i ++ t.rest p i :=
  (List.filter_append_filter_not (t.asc_level i) fun a b => hp (key a) (key b)).symm

/-- What is passed at a level is passed below. -/
theorem passed_sublist (t : Tower α key) (p : κ → Bool) {i j : ℕ} (h : i ≤ j) :
    (t.passed p j).Sublist (t.passed p i) := (t.sublist_of_le h).filter _

theorem rest_sublist (t : Tower α key) (p : κ → Bool) {i j : ℕ} (h : i ≤ j) :
    (t.rest p j).Sublist (t.rest p i) := (t.sublist_of_le h).filter _

/-- It is in the level, and the test holds. -/
theorem of_mem_passed {t : Tower α key} {i : ℕ} {a : α} (h : a ∈ t.passed p i) :
    a ∈ t.level i ∧ p (key a) = true := List.mem_filter.mp h

theorem of_mem_rest {t : Tower α key} {i : ℕ} {a : α} (h : a ∈ t.rest p i) :
    a ∈ t.level i ∧ p (key a) = false := by
  rw [rest, List.mem_filter] at h
  exact ⟨h.1, by simpa using h.2⟩

/-- A search that passes everything. -/
theorem passed_true (t : Tower α key) (i : ℕ) : t.passed (fun _ => true) i = t.level i := by
  simp [passed]

/-! ## Insertion -/

/-- The elements of a level with a smaller key. -/
abbrev below (t : Tower α key) (k : κ) (i : ℕ) : List α := t.passed (before k) i

/-- Those with a key at least as great. -/
abbrev above (t : Tower α key) (k : κ) (i : ℕ) : List α := t.rest (before k) i

theorem level_eq_below (t : Tower α key) (k : κ) (i : ℕ) :
    t.level i = t.below k i ++ t.above k i := t.level_eq (downward_before k) i

theorem lt_of_mem_below {t : Tower α key} {k : κ} {i : ℕ} {a : α} (h : a ∈ t.below k i) :
    key a < k := before_eq_true.mp (of_mem_passed h).2

theorem le_of_mem_above {t : Tower α key} {k : κ} {i : ℕ} {a : α} (h : a ∈ t.above k i) :
    k ≤ key a := before_eq_false.mp (of_mem_rest h).2

/-- The first element that is not below a key is the one with that key, if there is one. -/
theorem head?_above {t : Tower α key} {k : κ} {i : ℕ} {a : α} (ha : key a = k) :
    (t.above k i).head? = some a ↔ a ∈ t.level i := by
  constructor
  · intro h
    exact (of_mem_rest (List.mem_of_head? h)).1
  · intro h
    rw [t.level_eq_below k i, List.mem_append] at h
    have hmem : a ∈ t.above k i :=
      h.resolve_left fun hbelow => absurd ha (lt_of_mem_below hbelow).ne
    have hasc : (t.above k i).Pairwise fun a b => key a < key b :=
      (t.asc_level i).sublist List.filter_sublist
    cases habove : t.above k i with
    | nil =>
      rw [habove] at hmem
      exact absurd hmem List.not_mem_nil
    | cons b r =>
      rw [habove] at hmem hasc
      rcases List.mem_cons.mp hmem with rfl | hr
      · rfl
      · -- an element in front of it would be below the key
        have hlt := (List.pairwise_cons.mp hasc).1 a hr
        have hle : k ≤ key b := le_of_mem_above (habove ▸ List.mem_cons_self : b ∈ t.above k i)
        rw [ha] at hlt
        exact absurd hle hlt.not_ge

/-- Level `i` of a tower into which `x` was inserted at the lowest `n` levels. -/
def insertLevel (t : Tower α key) (x : α) (n i : ℕ) : List α :=
  if i < n then t.below (key x) i ++ x :: t.above (key x) i else t.level i

theorem level_sublist_insertLevel (t : Tower α key) (x : α) (n i : ℕ) :
    (t.level i).Sublist (t.insertLevel x n i) := by
  unfold insertLevel
  split
  · rw [t.level_eq_below (key x) i]
    exact (List.Sublist.refl _).append (List.sublist_cons_self _ _)
  · exact List.Sublist.refl _

/-- Levels that are not linked yet are as they were. -/
theorem insertLevel_of_le (t : Tower α key) (x : α) {n i : ℕ} (h : n ≤ i) :
    t.insertLevel x n i = t.level i := if_neg h.not_gt

/-- The next level gets the new element, ... -/
theorem insertLevel_succ (t : Tower α key) (x : α) (n : ℕ) :
    t.insertLevel x (n + 1) n = t.below (key x) n ++ x :: t.above (key x) n :=
  if_pos (Nat.lt_succ_self n)

/-- ... and no other level. -/
theorem insertLevel_succ_of_ne (t : Tower α key) (x : α) {n i : ℕ} (h : i ≠ n) :
    t.insertLevel x (n + 1) i = t.insertLevel x n i := by
  rcases Nat.lt_or_gt_of_ne h with hlt | hgt
  · rw [insertLevel, insertLevel, if_pos hlt, if_pos (by omega)]
  · rw [t.insertLevel_of_le x hgt.le, t.insertLevel_of_le x hgt]

/-- A new element at its place in the lowest `n` levels. -/
def insert (t : Tower α key) (x : α) (n : ℕ) (hnew : ∀ a ∈ t.level 0, key a ≠ key x) :
    Tower α key where
  level := t.insertLevel x n
  sub := by
    intro i
    by_cases hi : i + 1 < n
    · rw [insertLevel, insertLevel, if_pos hi, if_pos (by omega)]
      exact (t.passed_sublist _ (Nat.le_succ i)).append
        ((t.rest_sublist _ (Nat.le_succ i)).cons_cons x)
    · have htop : t.insertLevel x n (i + 1) = t.level (i + 1) := if_neg hi
      rw [htop]
      exact (t.sub i).trans (t.level_sublist_insertLevel x n i)
  asc := by
    unfold insertLevel
    split
    · have hasc := t.asc
      rw [t.level_eq_below (key x) 0, List.pairwise_append] at hasc
      obtain ⟨hbelow, hfrom, hcross⟩ := hasc
      -- no key is the new one, so the rest is above it
      have habove : ∀ a ∈ t.above (key x) 0, key x < key a := fun a ha =>
        lt_of_le_of_ne (le_of_mem_above ha) (hnew a (of_mem_rest ha).1).symm
      refine List.pairwise_append.mpr ⟨hbelow, List.pairwise_cons.mpr ⟨habove, hfrom⟩, ?_⟩
      intro a ha b hb
      rcases List.mem_cons.mp hb with rfl | hb
      · exact lt_of_mem_below ha
      · exact hcross a ha b hb
    · exact t.asc

@[simp] theorem insert_level (t : Tower α key) (x : α) (n : ℕ)
    (hnew : ∀ a ∈ t.level 0, key a ≠ key x) (i : ℕ) :
    (t.insert x n hnew).level i = t.insertLevel x n i := rfl

/-- Before the first link nothing has changed. -/
theorem insert_zero (t : Tower α key) (x : α) (hnew : ∀ a ∈ t.level 0, key a ≠ key x) :
    t.insert x 0 hnew = t := by
  have hlevel : t.insertLevel x 0 = t.level :=
    funext fun i => t.insertLevel_of_le x (Nat.zero_le i)
  cases t
  simpa [insert] using hlevel

theorem mem_insertLevel {t : Tower α key} {x : α} {n i : ℕ} {a : α}
    (h : a ∈ t.insertLevel x n i) : a = x ∨ a ∈ t.level i := by
  unfold insertLevel at h
  split at h
  · rw [t.level_eq_below (key x) i]
    simp only [List.mem_append, List.mem_cons] at h ⊢
    tauto
  · exact .inr h

end Tower
