import Zenith.Crdt.Codec

/-!
# Zenith — the ids in a clock

How long the encoding of a clock is depends on its ids only. A clock whose ids are among
those of a list, each taken once, is no longer than the list allows (`length_serialize_le`),
and incrementing and merging add no other ids.

In a cluster the ids of all clocks are those of its nodes. So whether a register fits its
length fields can be said of its key and value alone (`Fits`), once for the whole run, and
not of each clock that the run brings up.

Main result: `length_serialize_le`.
-/

namespace Zenith

namespace VectorClock

/-- Every entry of the clock is for one of the ids. -/
def Within (c : VectorClock) (ids : List NodeID) : Prop := ∀ n ∈ c.clock.keys, n ∈ ids

instance (c : VectorClock) (ids : List NodeID) : Decidable (c.Within ids) :=
  inferInstanceAs (Decidable (∀ n ∈ c.clock.keys, n ∈ ids))

/-- The largest encoding of a clock with these ids: a count, and for each id its length, its
bytes and a counter of eight bytes. -/
def clockSize (ids : List NodeID) : Nat := 4 + (ids.map fun n => n.length + 12).sum

variable {ids : List NodeID} {a b c : VectorClock}

theorem within_empty : empty.Within ids := fun _ hn => absurd hn List.not_mem_nil

/-- A node counts its own writes under its own id. -/
theorem Within.increment (h : c.Within ids) {node : NodeID} (hnode : node ∈ ids) :
    (c.increment node).Within ids := by
  intro n hn
  rcases SortedMap.mem_keys_insert.mp hn with rfl | hold
  · exact hnode
  · exact h n hold

/-- The loop of `merge`, by induction on the entries that are merged in. -/
theorem Within.mergeEntries (h : c.Within ids) {es : List (NodeID × Counter)}
    (hes : ∀ e ∈ es, e.1 ∈ ids) : (es.foldl mergeEntry c).Within ids := by
  induction es generalizing c with
  | nil => exact h
  | cons e es ih =>
    obtain ⟨he, hrest⟩ := List.forall_mem_cons.mp hes
    refine ih (fun n hn => ?_) hrest
    rcases SortedMap.mem_keys_insert.mp hn with rfl | hold
    · exact he
    · exact h n hold

theorem Within.merge (ha : a.Within ids) (hb : b.Within ids) : (a.merge b).Within ids :=
  ha.mergeEntries fun e he => hb e.1 (List.mem_map_of_mem he)

/-- The length of an encoding, from the ids of its entries. -/
theorem length_serialize_eq (c : VectorClock) :
    c.serialize.length = 4 + (c.clock.keys.map fun n => n.length + 12).sum := by
  have hentries : ∀ es : List (NodeID × Counter),
      (es.flatMap serializeEntry).length = ((es.map Prod.fst).map fun n => n.length + 12).sum := by
    intro es
    induction es with
    | nil => rfl
    | cons e es ih =>
      rw [List.flatMap_cons, List.length_append, ih, length_serializeEntry]
      rfl
  rw [SortedMap.keys, ← hentries]
  simp [serialize]

/-- A clock takes no more room than its ids do. -/
theorem length_serialize_le (h : c.Within ids) : c.serialize.length ≤ clockSize ids := by
  have hnodup : c.clock.keys.Nodup := by
    refine List.pairwise_map.mpr (c.clock.sorted.imp fun hlt => ?_)
    exact hlt.ne
  -- each id once, so they are part of the list up to order
  obtain ⟨l, hperm, hsub⟩ := List.subperm_of_subset hnodup h
  rw [length_serialize_eq, clockSize, ← (hperm.map _).sum_eq]
  exact Nat.add_le_add_left ((hsub.map _).sum_le_sum fun _ _ => Nat.zero_le _) 4

end VectorClock

end Zenith
