import Mathlib

/-!
# Lists of levels

One list per level, and what changing one level does to the whole: to a level that is looked
up (`getD_modify`), to a relation between two such lists that holds level by level
(`forall₂_modify`), and to the elements of all levels taken together
(`flatten_modify_append`, `flatten_modify_nil`, `length_flatten_modify_nil`).

A level that does not exist reads as empty, and a change to it is none, as with a vector
whose bounds are checked before an update.
-/

namespace Levels

variable {α β : Type}

/-- Looking up a level after one has changed. A change to a level that is not there has no
effect. -/
theorem getD_modify {levels : List (List α)} (i l : Nat) (f : List α → List α) :
    (levels.modify i f).getD l [] =
      if i = l ∧ l < levels.length then f (levels.getD l []) else levels.getD l [] := by
  rw [List.getD_eq_getElem?_getD, List.getD_eq_getElem?_getD, List.getElem?_modify]
  by_cases hl : l < levels.length
  · rw [List.getElem?_eq_getElem hl]
    by_cases hi : i = l <;> simp [hi, hl]
  · rw [List.getElem?_eq_none (by omega)]
    simp [hl]

/-- An element after a change was there before, or is what the change made of one. -/
theorem mem_modify {l : List α} {i : Nat} {f : α → α} {x : α} (h : x ∈ l.modify i f) :
    x ∈ l ∨ ∃ y ∈ l, x = f y := by
  obtain ⟨j, hj⟩ := List.mem_iff_getElem?.mp h
  rw [List.getElem?_modify] at hj
  cases hl : l[j]? with
  | none => simp [hl] at hj
  | some y =>
    have hy : y ∈ l := List.mem_of_getElem? hl
    rw [hl] at hj
    have hx : (if i = j then f y else y) = x := Option.some.inj hj
    by_cases hij : i = j
    · rw [if_pos hij] at hx
      exact Or.inr ⟨y, hy, hx.symm⟩
    · rw [if_neg hij] at hx
      exact Or.inl (hx ▸ hy)

/-- A level that changes holds what the levels held, or what the change brings. -/
theorem forall_flatten_modify {P : α → Prop} {levels : List (List α)} (h : ∀ x ∈ levels.flatten, P x)
    {f : List α → List α} (hf : ∀ level, (∀ x ∈ level, P x) → ∀ x ∈ f level, P x) (i : Nat) :
    ∀ x ∈ (levels.modify i f).flatten, P x := by
  have hlevels : ∀ level ∈ levels, ∀ x ∈ level, P x := fun level hlevel x hx =>
    h x (List.mem_flatten.mpr ⟨level, hlevel, hx⟩)
  intro x hx
  obtain ⟨level, hlevel, hx⟩ := List.mem_flatten.mp hx
  rcases mem_modify hlevel with hold | ⟨old, hold, rfl⟩
  · exact hlevels level hold x hx
  · exact hf old (hlevels old hold) x hx

/-- An element of a level is one of all levels. -/
theorem mem_flatten {levels : List (List α)} {l : Nat} {x : α} (h : x ∈ levels.getD l []) :
    x ∈ levels.flatten := by
  rw [List.getD_eq_getElem?_getD] at h
  cases hl : levels[l]? with
  | none =>
    rw [hl] at h
    exact absurd h List.not_mem_nil
  | some level =>
    rw [hl] at h
    exact List.mem_flatten.mpr ⟨level, List.mem_of_getElem? hl, h⟩

/-- Only the change to the level that is there counts. -/
theorem modify_congr {levels : List (List α)} {i : Nat} {f g : List α → List α}
    (h : f (levels.getD i []) = g (levels.getD i [])) : levels.modify i f = levels.modify i g := by
  apply List.ext_getElem?
  intro j
  rw [List.getElem?_modify, List.getElem?_modify]
  by_cases hij : i = j
  · subst hij
    rw [List.getD_eq_getElem?_getD] at h
    cases hl : levels[i]? with
    | none => rfl
    | some level =>
      rw [hl] at h
      simpa using h
  · simp [hij]

/-- A change commutes with a map that carries it over. -/
theorem map_modify {f : α → α} {f' : β → β} {g : α → β} (h : ∀ a, g (f a) = f' (g a)) (l : List α)
    (i : Nat) : (l.modify i f).map g = (l.map g).modify i f' := by
  apply List.ext_getElem?
  intro j
  rw [List.getElem?_map, List.getElem?_modify, List.getElem?_modify, List.getElem?_map]
  by_cases hij : i = j <;> cases l[j]? <;> simp [hij, h]

/-- As many copies of two related things. -/
theorem forall₂_replicate {R : α → β → Prop} {a : α} {b : β} (h : R a b) (n : Nat) :
    List.Forall₂ R (List.replicate n a) (List.replicate n b) := by
  induction n with
  | zero => exact .nil
  | succ n ih => exact .cons h ih

/-- The same change on both sides of a relation that holds level by level. -/
theorem forall₂_modify {R : α → β → Prop} {as : List α} {bs : List β} (h : List.Forall₂ R as bs)
    {f : α → α} {g : β → β} (hfg : ∀ a b, R a b → R (f a) (g b)) (i : Nat) :
    List.Forall₂ R (as.modify i f) (bs.modify i g) := by
  induction h generalizing i with
  | nil =>
    rw [List.modify_nil, List.modify_nil]
    exact .nil
  | cons hab hrest ih =>
    cases i with
    | zero => exact .cons (hfg _ _ hab) hrest
    | succ i => exact .cons hab (ih i)

/-- Levels that agree up to order, one by one. -/
theorem perm_flatten {f : β → α} {as : List (List α)} {bs : List (List β)}
    (h : List.Forall₂ (fun a b => a.Perm (b.map f)) as bs) : as.flatten.Perm (bs.flatten.map f) := by
  induction h with
  | nil => exact .nil
  | cons hab _ ih =>
    rw [List.flatten_cons, List.flatten_cons, List.map_append]
    exact hab.append ih

/-- One more element in a level. -/
theorem flatten_modify_append {levels : List (List α)} {i : Nat} (hi : i < levels.length) (x : α) :
    (levels.modify i (· ++ [x])).flatten.Perm (x :: levels.flatten) := by
  induction levels generalizing i with
  | nil => exact absurd hi (Nat.not_lt_zero i)
  | cons level levels ih =>
    cases i with
    | zero =>
      rw [List.modify_zero_cons, List.flatten_cons, List.flatten_cons, List.append_assoc]
      exact List.perm_middle
    | succ i =>
      rw [List.modify_succ_cons, List.flatten_cons, List.flatten_cons]
      exact ((ih (Nat.lt_of_succ_lt_succ hi)).append_left level).trans List.perm_middle

/-- A level is emptied. -/
theorem flatten_modify_nil (levels : List (List α)) (i : Nat) :
    (levels.modify i fun _ => []).flatten.Sublist levels.flatten := by
  induction levels generalizing i with
  | nil => rw [List.modify_nil]
  | cons level levels ih =>
    cases i with
    | zero => exact List.sublist_append_right level levels.flatten
    | succ i => exact (ih i).append_left level

/-- What an emptied level had is gone. -/
theorem length_flatten_modify_nil (levels : List (List α)) (i : Nat) :
    (levels.modify i fun _ => []).flatten.length + (levels.getD i []).length =
      levels.flatten.length := by
  induction levels generalizing i with
  | nil => rw [List.modify_nil, List.getD_nil, List.length_nil, Nat.add_zero]
  | cons level levels ih =>
    cases i with
    | zero =>
      rw [List.modify_zero_cons, List.flatten_cons, List.flatten_cons, List.nil_append,
        List.getD_cons_zero, List.length_append, Nat.add_comm]
    | succ i =>
      rw [List.modify_succ_cons, List.flatten_cons, List.flatten_cons, List.length_append,
        List.length_append, List.getD_cons_succ, Nat.add_assoc, ih i]

end Levels
