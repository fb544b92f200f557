import Zenith.Storage.SkipInsert

/-!
# Zenith — reading the skip list

What the readers of a skip list get that was filled by any sequence of insertions, with
nodes of any heights. A reader runs alone here, either when the last insertion is over or
between two stores of one more; readers that are overtaken while they run are modelled apart
from this.

What is said of a list is said by a map: `Shows s content` means that the pointers of `s`
spell a tower whose entries are those of `content`. It holds after any insertions and at
every moment of one, so that each property of a reader has to be proved once, of a list that
shows something.

Main results:

* `insertAll_refines` — the chains, `Get`, `Contains` and `Seek` are those of the sorted map
  of the insertions;
* `reads_between_stores` — so are `Get` and iteration between any two stores of an
  insertion, for the map before it or after it;
* `backward_mirrors_forward` — `Prev` undoes `Next`.
-/

namespace Zenith.SkipList

section Readers

variable {s : SkipList} {content : SortedMap Bytes Bytes}

/-- **Get** reads the map. -/
theorem Shows.get (h : s.Shows content) (key : Bytes) : s.get key = .ok (content.get? key) := by
  obtain ⟨t, hspells, hcontent⟩ := h
  rw [hspells.get_spec, hcontent]
  rfl

/-- **Contains** asks it. -/
theorem Shows.contains (h : s.Shows content) (key : Bytes) :
    s.contains key = .ok (content.get? key).isSome := by
  obtain ⟨t, hspells, hcontent⟩ := h
  rw [hspells.contains_spec, hcontent]
  rfl

/-- What is shown of the nodes from a target on. -/
theorem map_above (t : Chains) (target : Bytes) {β : Type} (f : Link → β) (key : β → Bytes)
    (hkey : ∀ x, key (f x) = x.2) :
    (t.above target 0).map f = ((t.level 0).map f).filter fun b => decide (target ≤ key b) := by
  rw [Tower.above, Tower.rest, List.filter_map]
  refine congrArg (List.map f) (List.filter_congr fun x _ => ?_)
  rw [Bool.eq_iff_iff, Bool.not_eq_true', Tower.before_eq_false, Function.comp_apply, hkey]
  exact decide_eq_true_iff.symm

/-- **Seek** and `Next` visit the entries from the target on. -/
theorem Spells.seek_forward {t : Chains} (h : Spells s t) (target : Bytes) :
    ∃ p, s.seek target = .ok p ∧
      s.forward p = .ok (((t.level 0).map s.shown).filter fun e => decide (target ≤ e.2.1)) := by
  refine ⟨_, h.seek_spec target, ?_⟩
  rw [h.forward_spec (t.level_eq_below target 0), map_above t target s.shown (fun e => e.2.1) fun _ => rfl]

/-- What is shown of the nodes, without their addresses. -/
theorem shown_map (s : SkipList) (t : Chains) :
    ((t.level 0).map s.shown).map Prod.snd = s.entries t := List.map_map

/-- Iterating from the first entry, or from a target on. -/
theorem Shows.iterate (h : s.Shows content) :
    (∃ p es, s.seekToFirst = .ok p ∧ s.forward p = .ok es ∧ es.map Prod.snd = content.toList) ∧
      ∀ target, ∃ p es, s.seek target = .ok p ∧ s.forward p = .ok es ∧
        es.map Prod.snd = content.toList.filter fun e => decide (target ≤ e.1) := by
  obtain ⟨t, hspells, hcontent⟩ := h
  refine ⟨⟨_, _, hspells.seekToFirst_spec, hspells.forward_spec (l := []) rfl, ?_⟩,
    fun target => ?_⟩
  · rw [shown_map, hcontent]
  · obtain ⟨p, hseek, hforward⟩ := hspells.seek_forward target
    refine ⟨p, _, hseek, hforward, ?_⟩
    rw [← hcontent, ← shown_map]
    rw [List.filter_map (f := Prod.snd)]
    rfl

end Readers

-- ---------------------------------------------------------------------------
-- After any insertions
-- ---------------------------------------------------------------------------

/-- **Refinement**: the list is the sorted map of its insertions. After any of them, with
any heights, every level is a chain and a part of the one below, and levels above the height
of the list are empty; the lowest has each key once, in ascending order, with the value that
was last inserted; `Get` and `Contains` answer as the map does; and `Seek` with `Next`
visits the entries from its target on. -/
theorem insertAll_refines (ops : List Insertion) :
    ∃ (s : SkipList) (chain : Nat → List (Addr × Bytes × Bytes)), new.insertAll ops = .ok s ∧
      (∀ i < kMaxHeight, s.levelChain i = .ok (chain i)) ∧
      (∀ i, (chain (i + 1)).Sublist (chain i)) ∧
      (∀ i, s.maxHeight ≤ i → chain i = []) ∧
      ((chain 0).Pairwise fun a b => a.2.1 < b.2.1) ∧
      (∀ k v, (k, v) ∈ (chain 0).map Prod.snd ↔
        History.last k (ops.map Insertion.entry) = some v) ∧
      (chain 0).map Prod.snd = (mapOf ops).toList ∧
      (∀ k, s.get k = .ok ((mapOf ops).get? k)) ∧
      (∀ k, s.contains k = .ok ((mapOf ops).get? k).isSome) ∧
      ∀ target, ∃ p, s.seek target = .ok p ∧
        s.forward p = .ok ((chain 0).filter fun e => decide (target ≤ e.2.1)) := by
  obtain ⟨s, hs, t, hspells, hcontent⟩ := shows_insertAll ops
  have hshows : s.Shows (mapOf ops) := ⟨t, hspells, hcontent⟩
  have hmap : ((t.level 0).map s.shown).map Prod.snd = (mapOf ops).toList := by
    rw [shown_map, hcontent]
  refine ⟨s, fun i => (t.level i).map s.shown, hs, fun i hi => hspells.levelChain_spec hi,
    fun i => (t.sub i).map s.shown, fun i hi => ?_, List.pairwise_map.mpr t.asc, fun k v => ?_,
    hmap, hshows.get, hshows.contains, hspells.seek_forward⟩
  · simp only [hspells.top i hi, List.map_nil]
  · rw [hmap, ← get?_mapOf, SortedMap.get?_eq_some_iff]

/-- **Reads between the stores** of an insertion: whatever has been stored, a reader gets
the entries without the new one or with it. The key is one that was not inserted before
(`hnew`); the value of one that was is replaced by a single store. Entries of other keys are
the same at all of these moments. -/
theorem reads_between_stores (ops : List Insertion) (key value : Bytes) (height : Height)
    (hnew : key ∉ ops.map Insertion.key) :
    ∃ s states, new.insertAll ops = .ok s ∧ s.insertStates key value height = .ok states ∧
      ∀ s' ∈ s :: states, ∃ seen : SortedMap Bytes Bytes,
        (∀ k, k ≠ key → seen.get? k = History.last k (ops.map Insertion.entry)) ∧
        (seen.get? key = none ∨ seen.get? key = some value) ∧
        (∀ k, s'.get k = .ok (seen.get? k)) ∧
        (∃ p es, s'.seekToFirst = .ok p ∧ s'.forward p = .ok es ∧
          es.map Prod.snd = seen.toList) ∧
        ∀ target, ∃ p es, s'.seek target = .ok p ∧ s'.forward p = .ok es ∧
          es.map Prod.snd = seen.toList.filter fun e => decide (target ≤ e.1) := by
  obtain ⟨s, hs, hshows⟩ := shows_insertAll ops
  obtain ⟨states, hstates, hall, -⟩ := hshows.insertStates key value height
  refine ⟨s, states, hs, hstates, fun s' hs' => ?_⟩
  have hseen : s'.Shows (mapOf ops) ∨ s'.Shows ((mapOf ops).insert key value) := by
    rcases List.mem_cons.mp hs' with rfl | hs'
    · exact .inl hshows
    · exact hall s' hs'
  rcases hseen with hseen | hseen
  · refine ⟨mapOf ops, fun k _ => get?_mapOf ops k, .inl ?_, hseen.get, hseen.iterate⟩
    rw [Option.eq_none_iff_forall_ne_some]
    intro v hv
    exact hnew (mem_keys_mapOf.mp (SortedMap.mem_keys_iff.mpr ⟨v, hv⟩))
  · refine ⟨(mapOf ops).insert key value, fun k hk => ?_, .inr (SortedMap.get?_insert_self ..),
      hseen.get, hseen.iterate⟩
    rw [SortedMap.get?_insert, if_neg hk, get?_mapOf]

/-- A key keeps its value while a taller node is linked in behind it. -/
theorem reads_between_stores_behind :
    [2] ∉ [Insertion.mk [1] [7] ⟨1, by decide⟩].map Insertion.key ∧
      ∃ s states, new.insertAll [⟨[1], [7], ⟨1, by decide⟩⟩] = .ok s ∧
        s.insertStates [2] [8] ⟨3, by decide⟩ = .ok states ∧
        ∀ s' ∈ s :: states, s'.get [1] = .ok (some [7]) := by
  have hnew : [2] ∉ [Insertion.mk [1] [7] ⟨1, by decide⟩].map Insertion.key := by decide
  obtain ⟨s, states, hs, hstates, hreads⟩ :=
    reads_between_stores [⟨[1], [7], ⟨1, by decide⟩⟩] [2] [8] ⟨3, by decide⟩ hnew
  refine ⟨hnew, s, states, hs, hstates, fun s' hs' => ?_⟩
  obtain ⟨seen, hseen, -, hget, -⟩ := hreads s' hs'
  rw [hget, hseen [1] (by decide)]
  rfl

/-- **Backward iteration** is forward iteration reversed, and `Prev` undoes `Next`, at every
position that an iterator can come to: `Prev` of any but the first leads to a node whose
`Next` leads back, and `Prev` of the first leads nowhere. The empty key is a key like
others; that the head has it as well is no hindrance. -/
theorem backward_mirrors_forward (ops : List Insertion) :
    ∃ s first last es, new.insertAll ops = .ok s ∧ s.seekToFirst = .ok first ∧
      s.seekToLast = .ok last ∧ s.forward first = .ok es ∧ s.backward last = .ok es.reverse ∧
      (es.Pairwise fun a b => a.2.1 < b.2.1) ∧
      (∀ k, k ∈ es.map (fun e => e.2.1) ↔ k ∈ ops.map Insertion.key) ∧
      (∀ x, s.Positioned x → first ≠ some x →
        ∃ y, s.iterPrev x = .ok (some y) ∧ s.iterNext y = .ok (some x)) ∧
      ∀ x, first = some x → s.iterPrev x = .ok none := by
  obtain ⟨s, hs, t, hspells, hcontent⟩ := shows_insertAll ops
  have hforward := hspells.forward_spec (l := []) rfl
  have hbackward := hspells.backward_spec (List.append_nil (t.level 0)).symm
  rw [List.map_reverse] at hbackward
  refine ⟨s, _, _, _, hs, hspells.seekToFirst_spec, hspells.seekToLast_spec, hforward, hbackward,
    List.pairwise_map.mpr t.asc, fun k => ?_, fun a ha hne => ?_, fun a hfirst => ?_⟩
  · rw [← mem_keys_mapOf, SortedMap.keys, ← hcontent, entries, List.map_map, List.map_map]
    rfl
  -- the node in front of x is the one whose successor is x
  · obtain ⟨x, hx, rfl⟩ := hspells.mem_of_positioned ha
    obtain ⟨l, r, hsplit⟩ := List.append_of_mem hx
    rcases List.eq_nil_or_concat' l with rfl | ⟨l, y, rfl⟩
    · exact absurd (by rw [hsplit]; rfl) hne
    · refine ⟨y.1, ?_, ?_⟩
      · rw [hspells.iterPrev_spec hsplit, List.reverse_append]
        rfl
      · refine (hspells.iterNext_spec (l := l) (x := y) (r := x :: r) ?_).trans rfl
        rw [hsplit, List.append_assoc]
        rfl
  · obtain ⟨x, hx, rfl⟩ := Option.map_eq_some_iff.mp hfirst
    obtain ⟨r, hr⟩ := List.head?_eq_some_iff.mp hx
    exact hspells.iterPrev_spec (l := []) hr

end Zenith.SkipList
