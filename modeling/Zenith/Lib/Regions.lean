import Mathlib

/-!
# Regions of memory

A region is a run of addresses. Two regions are apart when one ends before the other begins,
and parts of regions that are apart are apart (`Apart.mono`). Regions that are pairwise
apart in a range of addresses have no more bytes together than the range (`sum_size_le`).

An empty region is apart from itself, and within any region that its address lies in. A list
of regions may therefore have an empty one many times and be pairwise apart.

Addresses are natural numbers. That an address fits the words of a machine is said where it
is needed, as a bound on the end of a region.
-/

/-- The addresses from `addr` on. -/
structure Region where
  addr : ℕ
  size : ℕ
  deriving DecidableEq

namespace Region

/-- The end, which is not part of the region. -/
def stop (r : Region) : ℕ := r.addr + r.size

/-- The one lies in the other. -/
def Within (r q : Region) : Prop := q.addr ≤ r.addr ∧ r.stop ≤ q.stop

/-- They have no byte in common. -/
def Apart (r q : Region) : Prop := r.stop ≤ q.addr ∨ q.stop ≤ r.addr

instance (r q : Region) : Decidable (r.Within q) := inferInstanceAs (Decidable (_ ∧ _))

instance (r q : Region) : Decidable (r.Apart q) := inferInstanceAs (Decidable (_ ∨ _))

theorem Within.refl (r : Region) : r.Within r := ⟨le_rfl, le_rfl⟩

theorem Apart.symm {r q : Region} (h : r.Apart q) : q.Apart r := Or.symm h

/-- Parts of them are apart. -/
theorem Apart.mono {r r' q q' : Region} (h : r.Apart q) (hr : r'.Within r) (hq : q'.Within q) :
    r'.Apart q' :=
  h.imp (fun hle => hr.2.trans (hle.trans hq.1)) fun hle => hq.2.trans (hle.trans hr.1)

/-- The addresses of a list of regions. -/
def cover : List Region → Finset ℕ
  | [] => ∅
  | r :: rs => Finset.Ico r.addr r.stop ∪ cover rs

/-- An address of one of them. -/
theorem mem_cover {rs : List Region} {a : ℕ} :
    a ∈ cover rs ↔ ∃ r ∈ rs, r.addr ≤ a ∧ a < r.stop := by
  induction rs with
  | nil => simp [cover]
  | cons r rs ih => simp [cover, ih]

/-- Regions that are apart have as many addresses as their sizes say, by induction on them. -/
theorem card_cover {rs : List Region} (h : rs.Pairwise Apart) :
    (cover rs).card = (rs.map size).sum := by
  induction rs with
  | nil => rfl
  | cons r rs ih =>
    obtain ⟨hhead, htail⟩ := List.pairwise_cons.mp h
    have hdisjoint : Disjoint (Finset.Ico r.addr r.stop) (cover rs) := by
      rw [Finset.disjoint_left]
      intro a ha hcover
      obtain ⟨q, hq, hlo, hhi⟩ := mem_cover.mp hcover
      rw [Finset.mem_Ico] at ha
      rcases hhead q hq with hle | hle <;> omega
    rw [cover, Finset.card_union_of_disjoint hdisjoint, ih htail, Nat.card_Ico, List.map_cons,
      List.sum_cons, stop, Nat.add_sub_cancel_left]

/-- **Room**: what is pairwise apart in a range fits into it together. -/
theorem sum_size_le {rs : List Region} (h : rs.Pairwise Apart) {lo hi : ℕ}
    (hrange : ∀ r ∈ rs, lo ≤ r.addr ∧ r.stop ≤ hi) : (rs.map size).sum ≤ hi - lo := by
  rw [← card_cover h, ← Nat.card_Ico]
  refine Finset.card_le_card fun a ha => ?_
  obtain ⟨r, hr, hlo, hhi⟩ := mem_cover.mp ha
  obtain ⟨hlo', hhi'⟩ := hrange r hr
  rw [Finset.mem_Ico]
  omega

end Region
