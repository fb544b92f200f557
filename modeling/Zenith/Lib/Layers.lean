import Mathlib.Data.Set.Lattice
import Mathlib.Order.Bounds.Basic
import Mathlib.Order.Preorder.Chain

/-!
# Layers of versions

A layered store keeps the versions of a thing in numbered layers, new ones in layer 0, and
from time to time sinks a whole layer into the next one, summed up by what is greatest in
it. `u ≤ v` says that `v` is at least as new as `u`. Nothing else is known of versions, and
two of them may be equally new.

* `Descends` — every version has one above it that is as new, in every layer: what holds
  when layers are only ever added to (`Accumulated`, with all versions comparable).
* `Layered` — the same for layers that are not empty: what holds when a layer that has sunk
  is emptied.

A reader that stops at the first layer with a version needs no more than that: what is
greatest there bounds all layers (`Layered.bounds`).

The first notion is for a store that forgets nothing, such as a log of all that was ever
added; the second one for what the store shows. Showing everything again leads from the
first to the second (`Descends.layered`). Both are kept by additions under conditions that
speak of the layers and not of the way in which a store represents them.
-/

namespace Layers

variable {α : Type*}

/-- Versions that are in one layer only. -/
def only (i : ℕ) (new : Set α) (l : ℕ) : Set α := {v | i = l ∧ v ∈ new}

/-- The layer they are in. -/
theorem only_self (i : ℕ) (new : Set α) : only i new i = new := Set.ext fun _ => and_iff_right rfl

/-- Another layer. -/
theorem only_of_ne {i l : ℕ} (h : i ≠ l) (new : Set α) : only i new l = ∅ :=
  Set.eq_empty_of_forall_notMem fun _ hv => h hv.1

/-- All layers together. -/
theorem iUnion_only (i : ℕ) (new : Set α) : ⋃ l, only i new l = new := by
  ext v
  simp [only]

variable [Preorder α] {levels levels' : ℕ → Set α}

/-- Each layer is covered by the one above it. -/
def Descends (levels : ℕ → Set α) : Prop := ∀ l, IsCofinalFor (levels (l + 1)) (levels l)

/-- Each layer is covered by every layer above it that is not empty. -/
def Layered (levels : ℕ → Set α) : Prop :=
  ∀ i j, i < j → (levels i).Nonempty → IsCofinalFor (levels j) (levels i)

/-- **Point reads**: the greatest version of the topmost layer that has one. -/
theorem Layered.bounds (h : Layered levels) {i : ℕ} {v : α} (hv : IsGreatest (levels i) v)
    (habove : ∀ j < i, levels j = ∅) (l : ℕ) : v ∈ upperBounds (levels l) := by
  rcases lt_trichotomy l i with hlt | rfl | hgt
  · rw [habove l hlt]
    exact fun u hu => absurd hu (Set.notMem_empty u)
  · exact hv.2
  · exact upperBounds_mono_of_isCofinalFor (h i l hgt ⟨v, hv.1⟩) hv.2

/-- By induction on the distance: a layer is covered by all layers above it. -/
theorem Descends.covered (h : Descends levels) (i n : ℕ) :
    IsCofinalFor (levels (i + n)) (levels i) := by
  induction n with
  | zero => exact .rfl
  | succ n ih => exact (h (i + n)).trans ih

/-- Reading back the first `n` layers, and nothing else. -/
theorem Descends.layered (h : Descends levels) (n : ℕ) (hbelow : ∀ l < n, levels' l = levels l)
    (hrest : ∀ l, n ≤ l → levels' l = ∅) : Layered levels' := by
  intro i j hij _ u hu
  rcases Nat.lt_or_ge j n with hj | hj
  · rw [hbelow j hj] at hu
    rw [hbelow i (by omega)]
    obtain ⟨k, rfl⟩ := Nat.exists_eq_add_of_lt hij
    exact h.covered i (k + 1) hu
  · rw [hrest j hj] at hu
    exact absurd hu (Set.notMem_empty u)

/-- Layers that grow: what joins a layer below the top is covered by the layer above. -/
theorem Descends.grow (h : Descends levels) (hsub : ∀ l, levels l ⊆ levels' l)
    (hnew : ∀ l, ∀ u ∈ levels' (l + 1), u ∈ levels (l + 1) ∨ ∃ v ∈ levels l, u ≤ v) :
    Descends levels' := by
  intro l u hu
  have hcovered : ∃ v ∈ levels l, u ≤ v := by
    rcases hnew l u hu with hold | hnew
    · exact h l hold
    · exact hnew
  obtain ⟨v, hv, hle⟩ := hcovered
  exact ⟨v, hsub l hv, hle⟩

/-- Layers that are only ever added to. -/
structure Accumulated (levels : ℕ → Set α) : Prop where
  chain : IsChain (· ≤ ·) (⋃ l, levels l)
  descends : Descends levels

/-- Any two versions can be compared. -/
theorem Accumulated.total (h : Accumulated levels) {i j : ℕ} {u v : α} (hu : u ∈ levels i)
    (hv : v ∈ levels j) : u ≤ v ∨ v ≤ u :=
  h.chain.total (Set.mem_iUnion.mpr ⟨i, hu⟩) (Set.mem_iUnion.mpr ⟨j, hv⟩)

/-- **A layer gets versions** that are comparable with all others, and covered by the
layer above. -/
theorem Accumulated.add (h : Accumulated levels) {i : ℕ} {new : Set α}
    (hlevels : ∀ l, levels' l = levels l ∪ only i new l) (hchain : IsChain (· ≤ ·) new)
    (hcomparable : ∀ v ∈ new, ∀ l, ∀ u ∈ levels l, u ≤ v ∨ v ≤ u)
    (hcovered : ∀ l, i = l + 1 → IsCofinalFor new (levels l)) : Accumulated levels' := by
  refine ⟨?_, h.descends.grow (fun l => ?_) fun l u hu => ?_⟩
  · have hunion : ⋃ l, levels' l = (⋃ l, levels l) ∪ new := by
      rw [← iUnion_only i new, ← Set.iUnion_union_distrib]
      exact Set.iUnion_congr hlevels
    rw [hunion, isChain_union]
    refine ⟨h.chain, hchain, fun u hu v hv _ => ?_⟩
    obtain ⟨l, hu⟩ := Set.mem_iUnion.mp hu
    exact hcomparable v hv l u hu
  · rw [hlevels l]
    exact Set.subset_union_left
  · rw [hlevels] at hu
    rcases hu with hold | ⟨hi, hu⟩
    · exact .inl hold
    · exact .inr (hcovered l hi hu)

/-- **Layer 0 gets versions** that are as new as everything below it. -/
theorem Layered.add (h : Layered levels) {new : Set α}
    (hlevels : ∀ l, levels' l = levels l ∪ only 0 new l)
    (hnew : ∀ w ∈ new, ∀ l, l ≠ 0 → w ∈ upperBounds (levels l)) : Layered levels' := by
  have hrest : ∀ l, l ≠ 0 → levels' l = levels l := by
    intro l hl
    rw [hlevels, only_of_ne (Ne.symm hl), Set.union_empty]
  intro i j hij hne u hu
  rw [hrest j (by omega)] at hu
  by_cases hi : i = 0
  · subst hi
    rw [hlevels, only_self] at hne ⊢
    rcases hne with ⟨w, hold | hw⟩
    · obtain ⟨v, hv, hle⟩ := h 0 j hij ⟨w, hold⟩ hu
      exact ⟨v, .inl hv, hle⟩
    · exact ⟨w, .inr hw, hnew w hw j (by omega) hu⟩
  · rw [hrest i hi] at hne ⊢
    exact h i j hij hne hu

/-- What is left when layer `i` has sunk into the next one, which gets `out`. -/
def sunk (levels : ℕ → Set α) (i : ℕ) (out : Set α) (l : ℕ) : Set α :=
  {v | l ≠ i ∧ v ∈ levels l} ∪ only (i + 1) out l

/-- **A layer sinks**: it is emptied, and the next one gets what sums it up. -/
theorem Layered.sink (h : Layered levels) {i : ℕ} {out : Set α} (hfrom : IsCofinalFor out (levels i))
    (hover : ∀ o ∈ out, o ∈ upperBounds (levels i)) : Layered (sunk levels i out) := by
  intro a b hab
  rintro ⟨w, ⟨ha, hw⟩ | ⟨rfl, ho⟩⟩ u (⟨hb, hu⟩ | ⟨rfl, ho'⟩)
  · obtain ⟨v, hv, hle⟩ := h a b hab ⟨w, hw⟩ hu
    exact ⟨v, .inl ⟨ha, hv⟩, hle⟩
  · -- what sank is covered from above as its layer was
    obtain ⟨s, hs, hle⟩ := hfrom ho'
    obtain ⟨v, hv, hle'⟩ := h a i (by omega) ⟨w, hw⟩ hs
    exact ⟨v, .inl ⟨ha, hv⟩, hle.trans hle'⟩
  · -- the summary is over what the layer below its own had above it
    obtain ⟨s, hs, -⟩ := hfrom ho
    obtain ⟨v, hv, hle⟩ := h i b (by omega) ⟨s, hs⟩ hu
    exact ⟨w, .inr ⟨rfl, ho⟩, hle.trans (hover w ho hv)⟩
  · exact absurd hab (lt_irrefl _)

end Layers
