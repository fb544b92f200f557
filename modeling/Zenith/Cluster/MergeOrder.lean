import Zenith.Cluster.AntiEntropy
import Zenith.Cluster.Clocks

/-!
# Zenith — writes merged in different orders

A replica merges the registers of some writes in the order in which they arrive. The clock
it ends with is the least one above all of theirs, whatever the order. The value is another
matter. A write that is above all that arrived so far sets it, a write that is below is
ignored, and a concurrent one replaces it by the larger of both. So a value that should be
outdated can survive: it is first raised into a concurrent register, and the write that was
to overwrite it is then concurrent with the result.

An order can keep the value of a write alive unless the writes can be cut in two parts,
every write of the later part after every write of the earlier one, with the write in the
earlier part (`Outdated`). Behind such a cut no earlier value is left: the first arrival
from the later part is above all that came before it and sets the value, and from then on an
earlier write is below the clock and ignored.

`Merged` is the invariant of the arrivals: the clock is the least above them, it counts no
write that nothing above it has arrived for, and the value comes from a write that no cut
excludes. The last part is what `Merged.resolve` has to work for. In the other direction
`extend_order` builds an order that keeps a value, one write after the other: as long as a
write is missing that is not above all that arrived, it can come next without lowering the
value, and when none is left, the missing ones are the later part of a cut.

Main results: `Merged.resolve`, what one arrival does, `received_value_le` and
`exists_order`, and `orders_agree_iff`, which says when all orders give one result.
-/

namespace Zenith

open Bytes VectorClock

namespace Cluster

variable {ws l : List Write} {r : LWWRegister}

/-- What is used of the clocks of writes: they count the writes before them, and no two are
equal. The writes of a run have such clocks as long as no counter wraps around (`Recorded`). -/
structure CausalWrites (ws : List Write) : Prop where
  counts : ∀ u ∈ ws, ∀ w ∈ ws, u.reg.clock.get u.node ≤ w.reg.clock.get u.node →
    u.reg.clock ≤ w.reg.clock
  distinct : ∀ u ∈ ws, ∀ w ∈ ws, u.reg.clock ≤ w.reg.clock → w.reg.clock ≤ u.reg.clock → u = w

/-- No write is after it. -/
def Maximal (ws : List Write) (m : Write) : Prop :=
  m ∈ ws ∧ ∀ w ∈ ws, m.reg.clock ≤ w.reg.clock → w = m

/-- Every write of `late` is after every other write. -/
def Cut (ws late : List Write) : Prop :=
  late ⊆ ws ∧ ∀ w ∈ ws, w ∉ late → ∀ h ∈ late, w.reg.clock < h.reg.clock

/-- The write is in the earlier part of a cut. -/
def Outdated (ws : List Write) (u : Write) : Prop :=
  ∃ late, Cut ws late ∧ late ≠ [] ∧ u ∉ late

/-- What a replica that has nothing holds after these writes have arrived, the first of them
first. -/
def received (l : List Write) : Option LWWRegister :=
  l.foldl (fun s w => some (ZenithDB.resolve w.reg s)) none

theorem received_append (l : List Write) (w : Write) :
    received (l ++ [w]) = some (ZenithDB.resolve w.reg (received l)) := by
  unfold received
  rw [List.foldl_append]
  rfl

/-- Later writes of a cut stay later. -/
theorem Cut.mem_of_le {late : List Write} (h : Cut ws late) {w w' : Write} (hw : w ∈ late)
    (hw' : w' ∈ ws) (hle : w.reg.clock ≤ w'.reg.clock) : w' ∈ late := by
  by_contra hnot
  exact absurd hle (h.2 w' hw' hnot w hw).not_ge

-- ---------------------------------------------------------------------------
-- One arrival
-- ---------------------------------------------------------------------------

/-- What is known of the register that a replica holds when `l` has arrived. -/
structure Merged (ws l : List Write) (r : LWWRegister) : Prop where
  sub : l ⊆ ws
  upper : ∀ w ∈ l, w.reg.clock ≤ r.clock
  least : ∀ c, (∀ w ∈ l, w.reg.clock ≤ c) → r.clock ≤ c
  counts : ∀ u ∈ ws, u.reg.clock.get u.node ≤ r.clock.get u.node →
    ∃ w ∈ l, u.reg.clock ≤ w.reg.clock
  /-- the value comes from a write that no cut with an arrived later part excludes -/
  origin : ∃ u ∈ l, r.value = u.reg.value ∧
    ∀ late, Cut ws late → (∃ h ∈ l, h ∈ late) → u ∈ late
  top : ∀ m ∈ l, Maximal ws m → m.reg.value ≤ r.value

theorem merged_singleton (hws : CausalWrites ws) {w : Write} (hw : w ∈ ws) :
    Merged ws [w] w.reg where
  sub u hu := List.mem_singleton.mp hu ▸ hw
  upper u hu := by
    rw [List.mem_singleton.mp hu]
  least c hc := hc w (List.mem_singleton_self w)
  counts u hu hle := ⟨w, List.mem_singleton_self w, hws.counts u hu w hw hle⟩
  origin := by
    refine ⟨w, List.mem_singleton_self w, rfl, ?_⟩
    rintro late - ⟨h, hh, hlate⟩
    rwa [← List.mem_singleton.mp hh]
  top m hm _ := by
    rw [List.mem_singleton.mp hm]

/-- The clock after an arrival, whatever becomes of the value. -/
theorem Merged.clock (h : Merged ws l r) (hws : CausalWrites ws) {w : Write} (hw : w ∈ ws) :
    (∀ u ∈ l ++ [w], u.reg.clock ≤ (w.reg.merge r).clock) ∧
      (∀ c, (∀ u ∈ l ++ [w], u.reg.clock ≤ c) → (w.reg.merge r).clock ≤ c) ∧
      ∀ u ∈ ws, u.reg.clock.get u.node ≤ (w.reg.merge r).clock.get u.node →
        ∃ v ∈ l ++ [w], u.reg.clock ≤ v.reg.clock := by
  refine ⟨fun u hu => ?_, fun c hc => ?_, fun u hu hle => ?_⟩
  · rcases List.mem_append.mp hu with hu | hu
    · exact (h.upper u hu).trans (LWWRegister.clock_le_merge_right w.reg r)
    · rw [List.mem_singleton.mp hu]
      exact LWWRegister.clock_le_merge_left w.reg r
  · exact LWWRegister.clock_merge_le (hc w (List.mem_append_right _ (List.mem_singleton_self w)))
      (h.least c fun u hu => hc u (List.mem_append_left _ hu))
  -- each component of the merged clock is that of one of the two
  · rw [LWWRegister.get_clock_merge] at hle
    rcases le_max_iff.mp hle with hle | hle
    · exact ⟨w, List.mem_append_right _ (List.mem_singleton_self w), hws.counts u hu w hw hle⟩
    · obtain ⟨v, hv, huv⟩ := h.counts u hu hle
      exact ⟨v, List.mem_append_left _ hv, huv⟩

/-- A write below the clock is below something that arrived. -/
theorem Merged.below (h : Merged ws l r) {u : Write} (hu : u ∈ ws) (hle : u.reg.clock ≤ r.clock) :
    ∃ w ∈ l, u.reg.clock ≤ w.reg.clock := h.counts u hu (hle u.node)

/-- **One arrival.** The three cases are the three ways the new clock compares with the
clock held; they are the branches of `LWWRegister::merge`. -/
theorem Merged.resolve (h : Merged ws l r) (hws : CausalWrites ws) {w : Write} (hw : w ∈ ws) :
    Merged ws (l ++ [w]) (w.reg.merge r) := by
  obtain ⟨hupper, hleast, hcounts⟩ := h.clock hws hw
  have hsub : l ++ [w] ⊆ ws := List.append_subset.mpr ⟨h.sub, fun v hv => List.mem_singleton.mp hv ▸ hw⟩
  have hnew : w ∈ l ++ [w] := List.mem_append_right _ (List.mem_singleton_self w)
  obtain ⟨u, hu, huvalue, hcut⟩ := h.origin
  suffices hvalue : (∃ u ∈ l ++ [w], (w.reg.merge r).value = u.reg.value ∧
      ∀ late, Cut ws late → (∃ x ∈ l ++ [w], x ∈ late) → u ∈ late) ∧
      ∀ m ∈ l ++ [w], Maximal ws m → m.reg.value ≤ (w.reg.merge r).value from
    ⟨hsub, hupper, hleast, hcounts, hvalue.1, hvalue.2⟩
  by_cases hlt : w.reg.clock < r.clock
  · -- an older write is ignored
    obtain ⟨v, hv, hwv⟩ := h.below hw hlt.le
    rw [LWWRegister.merge_of_lt hlt]
    refine ⟨⟨u, List.mem_append_left _ hu, huvalue, ?_⟩, ?_⟩
    · rintro late hlate ⟨x, hx, hxlate⟩
      rcases List.mem_append.mp hx with hx | hx
      · exact hcut late hlate ⟨x, hx, hxlate⟩
      · rw [List.mem_singleton.mp hx] at hxlate
        exact hcut late hlate ⟨v, hv, hlate.mem_of_le hxlate (h.sub hv) hwv⟩
    · intro m hm hmax
      rcases List.mem_append.mp hm with hm | hm
      · exact h.top m hm hmax
      · rw [List.mem_singleton.mp hm] at hmax ⊢
        rw [← hmax.2 v (h.sub hv) hwv]
        exact h.top v hv (by rwa [hmax.2 v (h.sub hv) hwv])
  · by_cases hle : r.clock ≤ w.reg.clock
    · -- a write that is above all that arrived sets the value
      rw [LWWRegister.merge_of_le hle]
      refine ⟨⟨w, hnew, rfl, ?_⟩, ?_⟩
      · rintro late hlate ⟨x, hx, hxlate⟩
        rcases List.mem_append.mp hx with hx | hx
        · exact hlate.mem_of_le hxlate hw ((h.upper x hx).trans hle)
        · rwa [List.mem_singleton.mp hx] at hxlate
      · intro m hm hmax
        rcases List.mem_append.mp hm with hm | hm
        · rw [hmax.2 w hw ((h.upper m hm).trans hle)]
        · rw [List.mem_singleton.mp hm]
    · -- a concurrent write leaves the larger value
      have hge : ¬ w.reg.clock ≤ r.clock := fun hge => hlt (lt_of_le_not_ge hge hle)
      rw [LWWRegister.merge_of_concurrent hge hle]
      have horigin : ∀ late, Cut ws late → (∃ x ∈ l ++ [w], x ∈ late) → u ∈ late ∧ w ∈ late := by
        rintro late hlate ⟨x, hx, hxlate⟩
        by_cases hin : ∃ y ∈ l, y ∈ late
        · refine ⟨hcut late hlate hin, ?_⟩
          obtain ⟨y, hy, hylate⟩ := hin
          by_contra hnot
          exact hge ((hlate.2 w hw hnot y hylate).le.trans (h.upper y hy))
        · -- nothing of the later part arrived before, so all that did is below the new write
          push Not at hin
          rcases List.mem_append.mp hx with hx | hx
          · exact absurd hxlate (hin x hx)
          · rw [List.mem_singleton.mp hx] at hxlate
            exact absurd (h.least _ fun y hy => (hlate.2 y (h.sub hy) (hin y hy) w hxlate).le) hle
      refine ⟨?_, fun m hm hmax => ?_⟩
      · rcases max_choice w.reg.value r.value with hmax | hmax
        · exact ⟨w, hnew, hmax, fun late hlate hx => (horigin late hlate hx).2⟩
        · exact ⟨u, List.mem_append_left _ hu, hmax.trans huvalue,
            fun late hlate hx => (horigin late hlate hx).1⟩
      · rcases List.mem_append.mp hm with hm | hm
        · exact (h.top m hm hmax).trans (le_max_right _ _)
        · rw [List.mem_singleton.mp hm]
          exact le_max_left _ _

/-- **All arrivals**, by induction on them. -/
theorem merged_received (hws : CausalWrites ws) (hl : l ≠ []) (hsub : l ⊆ ws) :
    ∃ r, received l = some r ∧ Merged ws l r := by
  induction l using List.reverseRecOn with
  | nil => exact absurd rfl hl
  | append_singleton l w ih =>
    obtain ⟨hl', hw⟩ := List.append_subset.mp hsub
    have hw : w ∈ ws := hw (List.mem_singleton_self w)
    rw [received_append]
    by_cases hnil : l = []
    · subst hnil
      exact ⟨w.reg, rfl, merged_singleton hws hw⟩
    · obtain ⟨r, hr, hmerged⟩ := ih hnil hl'
      rw [hr]
      exact ⟨_, rfl, hmerged.resolve hws hw⟩

-- ---------------------------------------------------------------------------
-- All orders
-- ---------------------------------------------------------------------------

/-- Every value is outdated or at most that of a write that no other one is after. Nothing
is asked of the clocks, which agree in any case. -/
def Settling (ws : List Write) : Prop :=
  ∀ u ∈ ws, (∃ m, Maximal ws m ∧ u.reg.value ≤ m.reg.value) ∨ Outdated ws u

/-- An outdated value does not survive: the value that is left is at most that of a write
that no other one is after. -/
theorem received_value_le (hsettling : Settling ws) (h : Merged ws l r) (hall : ws ⊆ l) :
    ∃ m, Maximal ws m ∧ r.value ≤ m.reg.value := by
  obtain ⟨u, hu, hvalue, hcut⟩ := h.origin
  rw [hvalue]
  rcases hsettling u (h.sub hu) with hmax | ⟨late, hlate, hne, hnot⟩
  · exact hmax
  · obtain ⟨x, hx⟩ := List.exists_mem_of_ne_nil late hne
    exact absurd (hcut late hlate ⟨x, hall (hlate.1 hx), hx⟩) hnot

/-- Two orders end with one clock, and each value is at most the other. -/
theorem Merged.same {l' : List Write} {r' : LWWRegister} (hsettling : Settling ws)
    (h : Merged ws l r) (h' : Merged ws l' r') (hall : ws ⊆ l) (hall' : ws ⊆ l') : r.Same r' := by
  refine LWWRegister.same_of_le_of_le (le_antisymm ?_ ?_)
    (h.least _ fun w hw => h'.upper w (hall' (h.sub hw)))
    (h'.least _ fun w hw => h.upper w (hall (h'.sub hw)))
  · obtain ⟨m, hm, hle⟩ := received_value_le hsettling h hall
    exact hle.trans (h'.top m (hall' hm.1) hm)
  · obtain ⟨m, hm, hle⟩ := received_value_le hsettling h' hall'
    exact hle.trans (h.top m (hall hm.1) hm)

/-- Some write that no other one is after is after a given one. There are finitely many
writes. -/
theorem exists_maximal (hws : CausalWrites ws) {w : Write} (hw : w ∈ ws) :
    ∃ m, Maximal ws m ∧ w.reg.clock ≤ m.reg.clock := by
  have hfinite : {x | x ∈ ws ∧ w.reg.clock ≤ x.reg.clock}.Finite :=
    (List.finite_toSet ws).subset fun x hx => hx.1
  obtain ⟨m, hm, hmax⟩ := hfinite.exists_maximalFor (fun x => x.reg.clock) _ ⟨w, hw, le_refl _⟩
  refine ⟨m, ⟨hm.1, fun x hx hle => ?_⟩, hm.2⟩
  exact hws.distinct x hx m hm.1 (hmax ⟨hx, hm.2.trans hle⟩ hle) hle

/-- Under a clock above all writes, what still arrives leaves the value of a write that no
other one is after. -/
theorem foldl_dominated (hws : CausalWrites ws) (hsub : l ⊆ ws)
    (habove : ∀ w ∈ ws, w.reg.clock ≤ r.clock) (hvalue : ∃ m, Maximal ws m ∧ r.value = m.reg.value) :
    ∃ r', l.foldl (fun s w => some (ZenithDB.resolve w.reg s)) (some r) = some r' ∧
      ∃ m, Maximal ws m ∧ r'.value = m.reg.value := by
  induction l generalizing r with
  | nil => exact ⟨r, rfl, hvalue⟩
  | cons w l ih =>
    obtain ⟨hw, hl⟩ := List.cons_subset.mp hsub
    refine ih hl (fun x hx => (habove x hx).trans (LWWRegister.clock_le_merge_right w.reg r)) ?_
    by_cases hlt : w.reg.clock < r.clock
    · rwa [ZenithDB.resolve, LWWRegister.merge_of_lt hlt]
    · have hle : r.clock ≤ w.reg.clock := by
        by_contra hle
        exact hlt (lt_of_le_not_ge (habove w hw) hle)
      rw [ZenithDB.resolve, LWWRegister.merge_of_le hle]
      exact ⟨w, ⟨hw, fun x hx hwx => hws.distinct x hx w hw ((habove x hx).trans hle) hwx⟩, rfl⟩

/-- With the writes that no other one is after in front, one of their values is left. -/
theorem exists_maximal_order (hws : CausalWrites ws) (hne : ws ≠ []) :
    ∃ l r, (∀ w, w ∈ l ↔ w ∈ ws) ∧ received l = some r ∧
      ∃ m, Maximal ws m ∧ r.value = m.reg.value := by
  classical
  obtain ⟨x, hx⟩ := List.exists_mem_of_ne_nil ws hne
  obtain ⟨top, htop, -⟩ := exists_maximal hws hx
  -- the maximal writes first, and then all of them once more
  have hmem : ∀ w, w ∈ ws.filter (fun w => decide (Maximal ws w)) ↔ Maximal ws w := by
    intro w
    rw [List.mem_filter, decide_eq_true_eq]
    exact and_iff_right_of_imp fun h => h.1
  obtain ⟨r, hr, hmerged⟩ := merged_received hws (List.ne_nil_of_mem ((hmem top).mpr htop))
    fun w hw => ((hmem w).mp hw).1
  have habove : ∀ w ∈ ws, w.reg.clock ≤ r.clock := by
    intro w hw
    obtain ⟨m, hm, hle⟩ := exists_maximal hws hw
    exact hle.trans (hmerged.upper m ((hmem m).mpr hm))
  obtain ⟨u, hu, huvalue, -⟩ := hmerged.origin
  obtain ⟨r', hr', hvalue⟩ := foldl_dominated hws (fun w hw => hw) habove
    ⟨u, (hmem u).mp hu, huvalue⟩
  refine ⟨ws.filter (fun w => decide (Maximal ws w)) ++ ws, r', fun w => ?_, ?_, hvalue⟩
  · rw [List.mem_append, hmem]
    exact or_iff_right_of_imp fun h => h.1
  · unfold received at hr ⊢
    rw [List.foldl_append, hr, hr']

/-- A value that is not outdated can be kept, by induction on the number of writes that
have not arrived: as long as one of them is not above all that did, it can be next; if
there is none, they are the later part of a cut. -/
theorem extend_order (hws : CausalWrites ws) {u : Write} (hu : ¬ Outdated ws u) (n : Nat) :
    ∀ l r, received l = some r → Merged ws l r → u ∈ l → u.reg.value ≤ r.value →
      (∃ missing : List Write, missing.length ≤ n ∧ ∀ w ∈ ws, w ∉ l → w ∈ missing) →
      ∃ l' r', (∀ w, w ∈ l' ↔ w ∈ ws) ∧ received l' = some r' ∧ u.reg.value ≤ r'.value := by
  classical
  induction n with
  | zero =>
    rintro l r hr h hul hvalue ⟨missing, hlength, hmissing⟩
    refine ⟨l, r, fun w => ⟨fun hw => h.sub hw, fun hw => ?_⟩, hr, hvalue⟩
    by_contra hnot
    have := hmissing w hw hnot
    rw [List.length_eq_zero_iff.mp (Nat.le_zero.mp hlength)] at this
    exact absurd this List.not_mem_nil
  | succ n ih =>
    rintro l r hr h hul hvalue ⟨missing, hlength, hmissing⟩
    by_cases hall : ws ⊆ l
    · exact ⟨l, r, fun w => ⟨fun hw => h.sub hw, fun hw => hall hw⟩, hr, hvalue⟩
    · -- otherwise the missing writes are the later part of a cut without `u`
      obtain ⟨w, hw, hwl, hfree⟩ : ∃ w ∈ ws, w ∉ l ∧ ¬ r.clock ≤ w.reg.clock := by
        by_contra hnone
        push Not at hnone
        refine hu ⟨ws.filter (fun w => decide (w ∉ l)), ⟨List.filter_subset_self .., ?_⟩, ?_, ?_⟩
        · intro x hx hxlate y hy
          obtain ⟨hy, hyl⟩ := List.mem_filter.mp hy
          have hxl : x ∈ l := by
            by_contra hxl
            exact hxlate (List.mem_filter.mpr ⟨hx, decide_eq_true hxl⟩)
          have hle := (h.upper x hxl).trans (hnone y hy (of_decide_eq_true hyl))
          refine lt_of_le_not_ge hle fun hge => of_decide_eq_true hyl ?_
          rwa [← hws.distinct x hx y hy hle hge]
        · intro hnil
          refine hall fun x hx => ?_
          by_contra hxl
          have : x ∈ ws.filter (fun w => decide (w ∉ l)) :=
            List.mem_filter.mpr ⟨hx, decide_eq_true hxl⟩
          rw [hnil] at this
          exact absurd this List.not_mem_nil
        · intro hin
          exact of_decide_eq_true (List.mem_filter.mp hin).2 hul
      -- such a write does not lower the value
      have hkeeps : u.reg.value ≤ (w.reg.merge r).value := by
        by_cases hlt : w.reg.clock < r.clock
        · rwa [LWWRegister.merge_of_lt hlt]
        · rw [LWWRegister.merge_of_concurrent (fun hge => hlt (lt_of_le_not_ge hge hfree)) hfree]
          exact hvalue.trans (le_max_right _ _)
      refine ih (l ++ [w]) (w.reg.merge r) ?_ (h.resolve hws hw) (List.mem_append_left _ hul) hkeeps
        ⟨missing.erase w, ?_, fun x hx hxl => ?_⟩
      · rw [received_append, hr]
        rfl
      · rw [List.length_erase_of_mem (hmissing w hw hwl)]
        omega
      · rw [List.mem_append, not_or, List.mem_singleton] at hxl
        exact (List.mem_erase_of_ne hxl.2).mpr (hmissing x hx hxl.1)

/-- Some order of all writes, starting with the one whose value is to be kept. -/
theorem exists_order (hws : CausalWrites ws) {u : Write} (hmem : u ∈ ws) (hu : ¬ Outdated ws u) :
    ∃ l r, (∀ w, w ∈ l ↔ w ∈ ws) ∧ received l = some r ∧ u.reg.value ≤ r.value :=
  extend_order hws hu ws.length [u] u.reg rfl (merged_singleton hws hmem)
    (List.mem_singleton_self u) le_rfl ⟨ws, le_rfl, fun _ hw _ => hw⟩

/-- **Merging in any order.** All orders of the writes, with any repetitions, end with one
value and clock if and only if every value is outdated or at most that of a write that
no other one is after. -/
theorem orders_agree_iff (hws : CausalWrites ws) :
    (∀ l l', (∀ w, w ∈ l ↔ w ∈ ws) → (∀ w, w ∈ l' ↔ w ∈ ws) → SameRead (received l) (received l')) ↔
      Settling ws := by
  constructor
  · intro hagree u hu
    by_contra hnot
    -- one order ends with the value of a maximal write, another one with a larger value
    obtain ⟨hmax, hout⟩ := not_or.mp hnot
    obtain ⟨l, r, hl, hr, m, hm, hvalue⟩ := exists_maximal_order hws (List.ne_nil_of_mem hu)
    obtain ⟨l', r', hl', hr', hle⟩ := exists_order hws hu hout
    have hsame := hagree l l' hl hl'
    rw [hr, hr'] at hsame
    exact hmax ⟨m, hm, by rwa [← hvalue, hsame.1]⟩
  -- both orders end with a register that all writes are merged into
  · intro hsettling l l' hl hl'
    by_cases hnil : ws = []
    · have hempty : ∀ l : List Write, (∀ w, w ∈ l ↔ w ∈ ws) → l = [] := by
        intro l hl
        refine List.eq_nil_iff_forall_not_mem.mpr fun w hw => ?_
        have := (hl w).mp hw
        rw [hnil] at this
        exact absurd this List.not_mem_nil
      rw [hempty l hl, hempty l' hl']
      exact trivial
    · obtain ⟨x, hx⟩ := List.exists_mem_of_ne_nil ws hnil
      obtain ⟨r, hr, h⟩ := merged_received hws (List.ne_nil_of_mem ((hl x).mpr hx))
        fun w hw => (hl w).mp hw
      obtain ⟨r', hr', h'⟩ := merged_received hws (List.ne_nil_of_mem ((hl' x).mpr hx))
        fun w hw => (hl' w).mp hw
      rw [hr, hr']
      exact h.same hsettling h' (fun w hw => (hl w).mpr hw) fun w hw => (hl' w).mpr hw

end Cluster

end Zenith
