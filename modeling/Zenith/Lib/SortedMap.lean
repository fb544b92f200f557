import Mathlib

/-!
# Sorted maps

A finite map kept as a list of entries strictly ascending by key: the abstract content of a
balanced tree, a skip list or a sorted run. The ordering is a field of the structure, so a
map with a repeated or misplaced key cannot be built.

The list is the map: two maps with the same lookups have the same entries in the same order.
So a function that writes out a map, or reads it from front to back, needs no lemma about
orders, and equality of maps is proved key by key.

Keys may come from any linear order. `insertEntry` is defined on lists that need not be
sorted, because programs insert into lists of which that is still to be proved.

Main results: `get?_insert` (what an insertion changes), `ext_get?` (a map is determined by
its lookups), `get?_eq_some_iff` (lookups are memberships) and `toList_insert_last`
(inserting above every key appends). On a sorted list a test that fails above every element
on which it fails cuts where it filters (`takeWhile_eq_filter`, `dropWhile_eq_filter`).
-/

namespace List

variable {α : Type*}

/-- A list on which a test holds first and then no more. -/
theorem filter_append_filter_not {R : α → α → Prop} {p : α → Bool} {l : List α}
    (h : l.Pairwise R) (hp : ∀ a b, R a b → p b = true → p a = true) :
    l.filter p ++ l.filter (fun a => !p a) = l := by
  induction l with
  | nil => rfl
  | cons a l ih =>
    obtain ⟨hhead, htail⟩ := pairwise_cons.mp h
    cases ha : p a with
    | true => rw [filter_cons_of_pos ha, filter_cons_of_neg (by simp [ha]), cons_append, ih htail]
    | false =>
      -- nothing behind an element that fails the test passes it
      have hnone : l.filter p = [] := by
        rw [filter_eq_nil_iff]
        intro b hb hpb
        rw [hp a b (hhead b hb) hpb] at ha
        exact Bool.noConfusion ha
      have hall : l.filter (fun a => !p a) = l := by simpa [hnone] using ih htail
      rw [filter_cons_of_neg (by simp [ha]), filter_cons_of_pos (by simp [ha]), hnone, hall,
        nil_append]

/-- A test that holds first and then no more cuts where it filters. -/
theorem takeWhile_eq_filter {R : α → α → Prop} {p : α → Bool} {l : List α}
    (h : l.Pairwise R) (hp : ∀ a b, R a b → p b = true → p a = true) :
    l.takeWhile p = l.filter p := by
  induction l with
  | nil => rfl
  | cons a l ih =>
    obtain ⟨hhead, htail⟩ := pairwise_cons.mp h
    cases ha : p a with
    | true => rw [takeWhile_cons_of_pos ha, filter_cons_of_pos ha, ih htail]
    | false =>
      rw [takeWhile_cons_of_neg (by simp [ha]), eq_comm, filter_eq_nil_iff]
      intro b hb hpb
      rcases mem_cons.mp hb with rfl | hb
      · exact absurd hpb (by simp [ha])
      · rw [hp a b (hhead b hb) hpb] at ha
        exact Bool.noConfusion ha

/-- The other part. -/
theorem dropWhile_eq_filter {R : α → α → Prop} {p : α → Bool} {l : List α}
    (h : l.Pairwise R) (hp : ∀ a b, R a b → p b = true → p a = true) :
    l.dropWhile p = l.filter fun a => !p a := by
  have hsplit : l.takeWhile p ++ l.dropWhile p = l.filter p ++ l.filter fun a => !p a := by
    rw [takeWhile_append_dropWhile, filter_append_filter_not h hp]
  rw [takeWhile_eq_filter h hp] at hsplit
  exact append_cancel_left hsplit

end List

/-- A finite map as its list of entries in ascending key order. -/
structure SortedMap (κ ν : Type*) [LinearOrder κ] where
  toList : List (κ × ν)
  sorted : toList.Pairwise fun a b => a.1 < b.1

namespace SortedMap

variable {κ ν : Type*} [LinearOrder κ]

/-- The entry list with `k` set to `v`, replacing the entry already there. -/
def insertEntry (k : κ) (v : ν) : List (κ × ν) → List (κ × ν)
  | [] => [(k, v)]
  | e :: es =>
    if k < e.1 then (k, v) :: e :: es
    else if k = e.1 then (k, v) :: es
    else e :: insertEntry k v es

/-- An insertion adds its own entry and no other. -/
theorem mem_insertEntry {k : κ} {v : ν} {e : κ × ν} {es : List (κ × ν)}
    (h : e ∈ insertEntry k v es) : e = (k, v) ∨ e ∈ es := by
  induction es with
  | nil => simpa [insertEntry] using h
  | cons d es ih =>
    rw [insertEntry] at h
    split_ifs at h with hlt heq
    · simpa using h
    · rcases List.mem_cons.mp h with rfl | hmem
      · exact Or.inl rfl
      · exact Or.inr (List.mem_cons_of_mem _ hmem)
    · rcases List.mem_cons.mp h with rfl | hmem
      · exact Or.inr (List.mem_cons_self ..)
      · exact (ih hmem).imp_right (List.mem_cons_of_mem _)

/-- An insertion keeps the order. -/
theorem sorted_insertEntry (k : κ) (v : ν) {es : List (κ × ν)}
    (h : es.Pairwise fun a b => a.1 < b.1) :
    (insertEntry k v es).Pairwise fun a b => a.1 < b.1 := by
  induction es with
  | nil => exact List.pairwise_singleton _ _
  | cons e es ih =>
    obtain ⟨hhead, htail⟩ := List.pairwise_cons.mp h
    rw [insertEntry]
    split_ifs with hlt heq
    · refine List.pairwise_cons.mpr ⟨fun b hb => ?_, h⟩
      rcases List.mem_cons.mp hb with rfl | hb
      · exact hlt
      · exact hlt.trans (hhead b hb)
    · exact List.pairwise_cons.mpr ⟨fun b hb => heq ▸ hhead b hb, htail⟩
    · refine List.pairwise_cons.mpr ⟨fun b hb => ?_, ih htail⟩
      rcases mem_insertEntry hb with rfl | hb
      · exact lt_of_le_of_ne (not_lt.mp hlt) (Ne.symm heq)
      · exact hhead b hb

/-- The map without entries. -/
def empty : SortedMap κ ν := ⟨[], List.Pairwise.nil⟩

/-- Sets `k` to `v`. -/
def insert (m : SortedMap κ ν) (k : κ) (v : ν) : SortedMap κ ν :=
  ⟨insertEntry k v m.toList, sorted_insertEntry k v m.sorted⟩

/-- The value of the first entry for `k`. -/
def lookup (k : κ) : List (κ × ν) → Option ν
  | [] => none
  | e :: es => if k = e.1 then some e.2 else lookup k es

/-- The value stored under `k`. -/
def get? (m : SortedMap κ ν) (k : κ) : Option ν := lookup k m.toList

/-- The keys, ascending. -/
def keys (m : SortedMap κ ν) : List κ := m.toList.map Prod.fst

instance [DecidableEq ν] : DecidableEq (SortedMap κ ν) := fun a b =>
  decidable_of_iff (a.toList = b.toList)
    ⟨fun h => by cases a; cases b; cases h; rfl, fun h => h ▸ rfl⟩

/-! ## Lookups -/

/-- In a sorted list every entry is the first of its key. -/
theorem lookup_eq_some_of_sorted {es : List (κ × ν)} {k : κ} {v : ν}
    (h : es.Pairwise fun a b => a.1 < b.1) : lookup k es = some v ↔ (k, v) ∈ es := by
  induction es with
  | nil => simp [lookup]
  | cons e es ih =>
    obtain ⟨hhead, htail⟩ := List.pairwise_cons.mp h
    rw [lookup]
    by_cases hk : k = e.1
    · have hnot : (k, v) ∉ es := fun hmem => (hhead _ hmem).ne hk.symm
      rw [if_pos hk, List.mem_cons, or_iff_left hnot, Option.some_inj, Prod.ext_iff]
      exact ⟨fun h => ⟨hk, h.symm⟩, fun h => h.2.symm⟩
    · have hne : (k, v) ≠ e := fun h => hk (congrArg Prod.fst h)
      rw [if_neg hk, ih htail, List.mem_cons, or_iff_right hne]

/-- A lookup finds the entries of the map. -/
theorem get?_eq_some_iff {m : SortedMap κ ν} {k : κ} {v : ν} :
    m.get? k = some v ↔ (k, v) ∈ m.toList :=
  lookup_eq_some_of_sorted m.sorted

/-- It fails for a key without one. -/
theorem get?_eq_none_iff {m : SortedMap κ ν} {k : κ} :
    m.get? k = none ↔ ∀ v, (k, v) ∉ m.toList := by
  rw [Option.eq_none_iff_forall_ne_some]
  exact forall_congr' fun v => not_congr get?_eq_some_iff

@[simp] theorem get?_empty (k : κ) : (empty : SortedMap κ ν).get? k = none := rfl

/-- By induction on the entries. -/
theorem lookup_insertEntry (k : κ) (v : ν) (es : List (κ × ν)) (k' : κ) :
    lookup k' (insertEntry k v es) = if k' = k then some v else lookup k' es := by
  induction es with
  | nil => rfl
  | cons e es ih =>
    rw [insertEntry]
    by_cases hlt : k < e.1
    · rw [if_pos hlt, lookup]
    · by_cases heq : k = e.1
      · by_cases hk : k' = k <;> simp [← heq, hk, lookup]
      · rw [if_neg hlt, if_neg heq, lookup, ih, lookup]
        by_cases hk : k' = k
        · subst hk
          simp [heq]
        · simp [hk]

/-- An insertion changes the lookup of its own key and of no other. -/
theorem get?_insert (m : SortedMap κ ν) (k : κ) (v : ν) (k' : κ) :
    (m.insert k v).get? k' = if k' = k then some v else m.get? k' :=
  lookup_insertEntry k v m.toList k'

@[simp] theorem get?_insert_self (m : SortedMap κ ν) (k : κ) (v : ν) :
    (m.insert k v).get? k = some v := by simp [get?_insert]

/-- The keys are those with a value. -/
theorem mem_keys_iff {m : SortedMap κ ν} {k : κ} : k ∈ m.keys ↔ ∃ v, m.get? k = some v := by
  simp only [get?_eq_some_iff, keys, List.mem_map]
  constructor
  · rintro ⟨⟨k', v⟩, he, rfl⟩
    exact ⟨v, he⟩
  · rintro ⟨v, hv⟩
    exact ⟨(k, v), hv, rfl⟩

theorem mem_keys_insert {m : SortedMap κ ν} {k : κ} {v : ν} {k' : κ} :
    k' ∈ (m.insert k v).keys ↔ k' = k ∨ k' ∈ m.keys := by
  rw [mem_keys_iff, mem_keys_iff, get?_insert]
  by_cases h : k' = k <;> simp [h]

/-- A map is determined by its lookups. -/
theorem ext_get? {m m' : SortedMap κ ν} (h : ∀ k, m.get? k = m'.get? k) : m = m' := by
  have hmem : ∀ e, e ∈ m.toList ↔ e ∈ m'.toList := fun e => by
    rw [← get?_eq_some_iff (k := e.1) (v := e.2), h, get?_eq_some_iff]
  have : Std.Irrefl fun a b : κ × ν => a.1 < b.1 := ⟨fun a => lt_irrefl a.1⟩
  have : Std.Antisymm fun a b : κ × ν => a.1 < b.1 := ⟨fun _ _ h h' => absurd h' h.asymm⟩
  have hlist : m.toList = m'.toList := m.sorted.eq_of_mem_iff m'.sorted hmem
  cases m; cases m'; cases hlist; rfl

/-- Takes the entry for `k` out. -/
def erase (m : SortedMap κ ν) (k : κ) : SortedMap κ ν :=
  ⟨m.toList.filter fun e => decide (e.1 ≠ k), m.sorted.filter _⟩

/-- A removal changes the lookup of its own key and of no other. -/
theorem get?_erase (m : SortedMap κ ν) (k k' : κ) :
    (m.erase k).get? k' = if k' = k then none else m.get? k' := by
  have hmem : ∀ v, (k', v) ∈ (m.erase k).toList ↔ (k', v) ∈ m.toList ∧ k' ≠ k := fun v => by
    rw [erase, List.mem_filter, decide_eq_true_eq]
  split
  · next hk =>
    rw [get?_eq_none_iff]
    exact fun v hv => ((hmem v).mp hv).2 hk
  · next hk =>
    apply Option.ext
    intro v
    rw [get?_eq_some_iff, get?_eq_some_iff, hmem]
    exact and_iff_left hk

/-- A key above all others goes to the end. -/
theorem insertEntry_last {k : κ} (v : ν) {es : List (κ × ν)} (h : ∀ e ∈ es, e.1 < k) :
    insertEntry k v es = es ++ [(k, v)] := by
  induction es with
  | nil => rfl
  | cons e es ih =>
    have hlt : e.1 < k := h e (List.mem_cons_self ..)
    rw [insertEntry, if_neg hlt.not_gt, if_neg hlt.ne', List.cons_append,
      ih fun d hd => h d (List.mem_cons_of_mem _ hd)]

/-- Inserting above every key appends. -/
theorem toList_insert_last {m : SortedMap κ ν} {k : κ} (v : ν)
    (h : ∀ e ∈ m.toList, e.1 < k) : (m.insert k v).toList = m.toList ++ [(k, v)] :=
  insertEntry_last v h

end SortedMap
