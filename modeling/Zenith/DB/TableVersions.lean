import Zenith.DB.Compaction
import Zenith.DB.Versions
import Zenith.Lib.Layers

/-!
# Zenith — the versions of a key on disk

A table holds at most one version of a key. `get_crdt` asks the tables level by level, and
within a level in the order of their smallest keys, which says nothing about their age; it
returns the first version it finds. A compaction puts the merge of a level's versions into
one table, which is the newest of them when the versions form a chain.

A version of a table is what a scan reads (`SSTable.Version`), not what a lookup returns,
because a lookup can miss a key that a scan finds. For the table in front this makes a
difference, so `InFront` asks in addition that its lookup does not miss. Of the tables
before it nothing is needed but that they do not have the key.

Registers are ordered by age: the larger one absorbs the smaller one. That is a preorder,
for registers of one clock and one value absorb each other, and the results about levels use
it as such.

`Legible` collects what makes a table readable from end to end: its rows fit, and its index
can count its blocks. A flushed table is legible if its memtable was small enough, which is
a condition on the run.

Main results: `lookupLevels_front`, by which a search returns the newest version of the
topmost level that has the key when that version is in front, and `compacted_version`.
-/

namespace Zenith

open Bytes VectorClock

/-- Registers by age: the larger one absorbs the smaller one. -/
instance : Preorder LWWRegister where
  le u v := v.Absorbs u
  le_refl := LWWRegister.Absorbs.refl
  le_trans _ _ _ h h' := h'.trans h

variable {ids : List NodeID}

-- ---------------------------------------------------------------------------
-- One table
-- ---------------------------------------------------------------------------

namespace SSTable

/-- The version of a key that a table holds: what a scan up to the key reads. -/
def Version (t : SSTable) (key : Bytes) (v : LWWRegister) : Prop :=
  ∃ rows, t.scan [] key = .ok rows ∧ ∃ e ∈ rows, e.1 = key ∧ LWWRegister.deserialize e.2 = .ok v

/-- A table over registers that fit, with no more blocks than its index can count. -/
structure Legible (ids : List NodeID) (t : SSTable) (es : List Entry) : Prop where
  opened : t.OpenedOn es
  held : Rows (ZenithDB.Held ids) es
  count : (blocksOf es).length < 2 ^ 32

variable {t : SSTable} {es : List Entry} {key : Bytes} {u v : LWWRegister}

/-- A scan from the front reads every entry up to its end. -/
theorem Legible.scan (h : t.Legible ids es) (stop : Bytes) :
    t.scan [] stop = .ok (es.filter (inRange [] stop)) := h.opened.scan_all h.count stop

/-- A range that starts with the empty key. -/
theorem inRange_nil {stop : Bytes} {e : Entry} : inRange [] stop e = true ↔ e.1 ≤ stop := by
  rw [inRange, Bool.and_eq_true, decide_eq_true_eq, decide_eq_true_eq, and_iff_right]
  exact not_lt.mp (List.not_lt_nil e.1)

/-- The version of a key is the register of its row. -/
theorem Legible.version_iff (h : t.Legible ids es) :
    t.Version key v ↔ ∃ raw, (key, raw) ∈ es ∧ LWWRegister.deserialize raw = .ok v := by
  constructor
  · rintro ⟨rows, hrows, ⟨k, raw⟩, he, rfl, hread⟩
    rw [h.scan] at hrows
    rw [← Except.ok.inj hrows] at he
    exact ⟨raw, List.mem_of_mem_filter he, hread⟩
  · rintro ⟨raw, hraw, hread⟩
    exact ⟨_, h.scan key, (key, raw), List.mem_filter.mpr ⟨hraw, inRange_nil.mpr (le_refl key)⟩, rfl,
      hread⟩

/-- Rows have different keys, so there is one at most. -/
theorem Legible.version_unique (h : t.Legible ids es) (hu : t.Version key u)
    (hv : t.Version key v) : u = v := by
  obtain ⟨raw, hraw, hu⟩ := h.version_iff.mp hu
  obtain ⟨raw', hraw', hv⟩ := h.version_iff.mp hv
  have hlookup := (SortedMap.lookup_eq_some_of_sorted h.opened.sorted).mpr hraw
  rw [(SortedMap.lookup_eq_some_of_sorted h.opened.sorted).mpr hraw'] at hlookup
  obtain rfl := Option.some.inj hlookup
  exact Except.ok.inj (hu.symm.trans hv)

/-- What a lookup finds is the version. -/
theorem Legible.get (h : t.Legible ids es) (key : Bytes) :
    ∃ found, t.get key = .ok found ∧ ∀ raw ∈ found, raw ≠ [] ∧
      ∃ v, LWWRegister.deserialize raw = .ok v ∧ t.Version key v := by
  obtain ⟨found, hget, hlookup⟩ := h.opened.get_sound key
  refine ⟨found, hget, fun raw hraw => ?_⟩
  have hmem := (SortedMap.lookup_eq_some_of_sorted h.opened.sorted).mp (hlookup raw hraw)
  obtain ⟨v, hread, rfl, -⟩ := (h.held _ hmem).read
  exact ⟨v.serialize_ne_nil, v, hread, h.version_iff.mpr ⟨_, hmem, hread⟩⟩

/-- A table that has the key does not start above it. -/
theorem Legible.minKey_le (h : t.Legible ids es) (hv : t.Version key v) : t.metaData.minKey ≤ key := by
  by_contra hlt
  rw [not_le] at hlt
  obtain ⟨raw, hraw, -⟩ := h.version_iff.mp hv
  have hne : t.metaData.minKey ≠ [] := by
    intro hnil
    rw [hnil] at hlt
    exact List.not_lt_nil key hlt
  have hnone : es.filter (inRange [] key) = [] := h.opened.filter_below hne hlt
  rw [List.filter_eq_nil_iff] at hnone
  exact hnone _ hraw (inRange_nil.mpr (le_refl key))

end SSTable

/-- A layout entry over a table that can be read. -/
def FileEntry.Legible (ids : List NodeID) (fe : FileEntry) : Prop :=
  fe = ZenithDB.entryOf fe.sst ∧ ∃ es, fe.sst.table.Legible ids es

/-- An opened table has no largest key. -/
theorem FileEntry.Legible.maxKey {fe : FileEntry} (h : fe.Legible ids) : fe.maxKey = [] := by
  obtain ⟨heq, es, hes⟩ := h
  rw [heq]
  exact hes.opened.maxKey

namespace ZenithDB

variable {key : Bytes}

-- ---------------------------------------------------------------------------
-- One level
-- ---------------------------------------------------------------------------

/-- The versions of a key that the tables of a level hold. -/
def levelVersions (key : Bytes) (level : List FileEntry) : Set LWWRegister :=
  {v | ∃ fe ∈ level, fe.sst.table.Version key v}

/-- The first table of the level that has the key has a version that absorbs all
versions of the level, and its lookup does not miss it. -/
def InFront (key : Bytes) (level : List FileEntry) : Prop :=
  ∃ before fe after v, level = before ++ fe :: after ∧
    (∀ b ∈ before, ∀ u, ¬ b.sst.table.Version key u) ∧
    fe.sst.table.Version key v ∧ (∀ u ∈ levelVersions key level, u ≤ v) ∧
    fe.sst.table.get key ≠ .ok none

variable {level : List FileEntry}

/-- Opened tables have no largest key, so the search starts at the front of the level. -/
theorem lowerBound_of_legible (h : ∀ fe ∈ level, fe.Legible ids) :
    lowerBound key level = .ok 0 :=
  lowerBound_eq_zero fun fe hfe => (h fe hfe).maxKey

/-- A table without the key is passed over. -/
theorem get_absent {t : SSTable} {es : List Entry} (h : t.Legible ids es)
    (hnone : ∀ u, ¬ t.Version key u) : t.get key = .ok none := by
  obtain ⟨found, hget, hfound⟩ := h.get key
  cases found with
  | none => exact hget
  | some raw =>
    obtain ⟨-, v, -, hv⟩ := hfound raw rfl
    exact absurd hv (hnone v)

/-- A level without the key is passed over. -/
theorem lookupFiles_absent (h : ∀ fe ∈ level, fe.Legible ids)
    (hnone : ∀ fe ∈ level, ∀ u, ¬ fe.sst.table.Version key u) :
    lookupFiles key level = .ok none := by
  induction level with
  | nil => rfl
  | cons fe level ih =>
    obtain ⟨⟨-, es, hes⟩, hrest⟩ := List.forall_mem_cons.mp h
    obtain ⟨hfe, hnone⟩ := List.forall_mem_cons.mp hnone
    rw [lookupFiles]
    split
    · rfl
    · rw [get_absent hes hfe]
      exact ih hrest hnone

/-- **The level that has the key**: the tables in front of the newest version start no
later than it does, so the search comes to it. -/
theorem lookupFiles_front (h : ∀ fe ∈ level, fe.Legible ids)
    (hsorted : level.Pairwise fun a b => a.minKey ≤ b.minKey) (hfront : InFront key level) :
    ∃ raw v, lookupFiles key level = .ok (some raw) ∧ LWWRegister.deserialize raw = .ok v ∧
      IsGreatest (levelVersions key level) v := by
  obtain ⟨before, fe, after, v, rfl, hbefore, hv, hgreatest, hfound⟩ := hfront
  have hmem : fe ∈ before ++ fe :: after := List.mem_append_right _ (List.mem_cons_self ..)
  obtain ⟨heq, es, hes⟩ := h fe hmem
  have hmin : fe.minKey ≤ key := by
    rw [heq]
    exact hes.minKey_le hv
  obtain ⟨found, hget, hread⟩ := hes.get key
  -- the table in front has the version, so a lookup of it finds a register
  cases found with
  | none => exact absurd hget hfound
  | some raw =>
    obtain ⟨hne, v', hdecode, hv'⟩ := hread raw rfl
    obtain rfl := hes.version_unique hv hv'
    refine ⟨raw, v, ?_, hdecode, ⟨fe, hmem, hv⟩, hgreatest⟩
    clear hgreatest hmem
    -- tables in front of it do not have the key and are passed
    induction before with
    | nil =>
      rw [List.nil_append, lookupFiles, if_neg fun hlt => not_lt.mpr hmin hlt.2, hget,
        Except.ok_bind]
      exact if_neg hne
    | cons b before ih =>
      obtain ⟨⟨-, bs, hbs⟩, hrest⟩ := List.forall_mem_cons.mp h
      obtain ⟨hnone, hbefore⟩ := List.forall_mem_cons.mp hbefore
      obtain ⟨hle, hsorted⟩ := List.pairwise_cons.mp hsorted
      have hb : b.minKey ≤ key := (hle fe (List.mem_append_right _ (List.mem_cons_self ..))).trans hmin
      rw [List.cons_append, lookupFiles_cons hb (by rw [get_absent hbs hnone]; rfl)]
      exact ih hrest hsorted hbefore

/-- **Level by level**: the search returns the newest version of the topmost level that
has the key. -/
theorem lookupLevels_front {above below : Layout}
    (h : AllFiles (FileEntry.Legible ids) (above ++ level :: below))
    (hsorted : level.Pairwise fun a b => a.minKey ≤ b.minKey)
    (habove : ∀ l ∈ above, ∀ fe ∈ l, ∀ u, ¬ fe.sst.table.Version key u)
    (hfront : InFront key level) :
    ∃ raw v, lookupLevels key (above ++ level :: below) = .ok (some raw) ∧
      LWWRegister.deserialize raw = .ok v ∧ IsGreatest (levelVersions key level) v := by
  have hlevel := h level (List.mem_append_right _ (List.mem_cons_self ..))
  obtain ⟨raw, v, hlookup, hread, hv⟩ := lookupFiles_front hlevel hsorted hfront
  refine ⟨raw, v, ?_, hread, hv⟩
  -- levels above do not have the key, so the search goes on
  induction above with
  | nil =>
    rw [List.nil_append, lookupLevels, lowerBound_of_legible hlevel, Except.ok_bind, List.drop_zero,
      hlookup]
    rfl
  | cons top above ih =>
    obtain ⟨htop, hrest⟩ := List.forall_mem_cons.mp h
    obtain ⟨hnone, habove⟩ := List.forall_mem_cons.mp habove
    rw [List.cons_append, lookupLevels, lowerBound_of_legible htop, Except.ok_bind, List.drop_zero,
      lookupFiles_absent htop hnone]
    exact ih hrest habove

-- ---------------------------------------------------------------------------
-- Compactions
-- ---------------------------------------------------------------------------

/-- The versions of a key that input tables hold. -/
def inputVersions (key : Bytes) (inputs : List TableRef) : Set LWWRegister :=
  {v | ∃ sst ∈ inputs, sst.table.Version key v}

/-- Merges of registers that fit. -/
theorem mergeAll_fits {regs : List LWWRegister} {whole : LWWRegister}
    (h : ∀ r ∈ regs, r.clock.Within ids ∧ Fits ids key r.value) (hwhole : mergeAll regs = some whole) :
    whole.clock.Within ids ∧ Fits ids key whole.value := by
  induction regs using List.reverseRecOn generalizing whole with
  | nil => exact absurd hwhole (by simp [mergeAll])
  | append_singleton regs r ih =>
    rw [List.forall_mem_append, List.forall_mem_singleton] at h
    obtain ⟨hregs, hids, hfits⟩ := h
    rw [mergeAll_append] at hwhole
    cases hm : mergeAll regs with
    | none =>
      rw [hm] at hwhole
      obtain rfl := Option.some.inj hwhole
      exact ⟨hids, hfits⟩
    | some front =>
      rw [hm] at hwhole
      obtain rfl := Option.some.inj hwhole
      obtain ⟨hfids, hffits⟩ := ih hregs hm
      exact fits_merge hfids hids hffits hfits

/-- Rows that fit can be merged in any groups. -/
theorem partialsFit_of_held {rows : List Entry} (h : Rows (Held ids) rows) : PartialsFit rows := by
  intro key
  have hheld : ∀ raw ∈ versions rows key, Held ids key raw := by
    intro raw hraw
    obtain ⟨row, hrow, rfl⟩ := List.mem_map.mp hraw
    obtain ⟨hrow, hkey⟩ := List.mem_filter.mp hrow
    rw [← of_decide_eq_true hkey]
    exact h row hrow
  obtain ⟨regs, hregs⟩ := Except.exists_mapM fun raw hraw => by
    obtain ⟨r, hr, -⟩ := (hheld raw hraw).read
    exact ⟨r, hr⟩
  refine ⟨regs, hregs, fun pre hpre whole hwhole => ?_⟩
  -- every partial merge is of registers that fit, so its clock has ids of the same set
  have hfits : ∀ r ∈ pre, r.clock.Within ids ∧ Fits ids key r.value := by
    intro r hr
    obtain ⟨raw, hraw, hread⟩ := (Except.mem_of_mapM hregs r).mp (hpre.subset hr)
    obtain ⟨r', hread', -, hids, hfits⟩ := (hheld raw hraw).read
    obtain rfl := Except.ok.inj (hread'.symm.trans hread)
    exact ⟨hids, hfits⟩
  obtain ⟨hids, hfits⟩ := mergeAll_fits hfits hwhole
  have hlen := length_serialize_le hids
  unfold Fits at hfits
  show whole.clock.serialize.length < 2 ^ 32
  omega

/-- **The merge of a chain** is its newest register. -/
theorem mergeAll_chain {regs : List LWWRegister} {whole : LWWRegister}
    (hchain : ∀ u ∈ regs, ∀ v ∈ regs, u ≤ v ∨ v ≤ u) (hwhole : mergeAll regs = some whole) :
    (∃ w ∈ regs, w.Same whole) ∧ ∀ w ∈ regs, w ≤ whole := by
  induction regs using List.reverseRecOn generalizing whole with
  | nil => exact absurd hwhole (by simp [mergeAll])
  | append_singleton regs r ih =>
    have hlast : r ∈ regs ++ [r] := List.mem_append_right _ (List.mem_singleton_self r)
    rw [mergeAll_append] at hwhole
    cases hm : mergeAll regs with
    | none =>
      rw [hm] at hwhole
      obtain rfl := Option.some.inj hwhole
      -- the first register is its own merge
      have hnil : regs = [] := by
        cases regs with
        | nil => rfl
        | cons first rest => exact absurd hm (by simp [mergeAll])
      subst hnil
      exact ⟨⟨r, hlast, .refl r⟩, List.forall_mem_singleton.mpr (le_refl r)⟩
    | some front =>
      rw [hm] at hwhole
      obtain rfl := Option.some.inj hwhole
      obtain ⟨⟨w, hw, hsame⟩, hbound⟩ := ih
        (fun u hu v hv => hchain u (List.mem_append_left _ hu) v (List.mem_append_left _ hv)) hm
      -- the newer one of `front` and `r` survives
      rcases hchain w (List.mem_append_left _ hw) r hlast with hle | hge
      · have hnew : r.Absorbs front := LWWRegister.Absorbs.congr hle (.refl r) hsame
        have hmerge := hnew.merge_right
        refine ⟨⟨r, hlast, hmerge.symm⟩, ?_⟩
        rw [List.forall_mem_append, List.forall_mem_singleton]
        exact ⟨fun u hu => (hnew.trans (hbound u hu)).congr hmerge.symm (.refl u), .inr hmerge⟩
      · have hold : front.Absorbs r := LWWRegister.Absorbs.congr hge hsame (.refl r)
        have hmerge := hold.merge_left
        refine ⟨⟨w, List.mem_append_left _ hw, hsame.trans hmerge.symm⟩, ?_⟩
        rw [List.forall_mem_append, List.forall_mem_singleton]
        exact ⟨fun u hu => LWWRegister.Absorbs.congr (hbound u hu) hmerge.symm (.refl u),
          hold.congr hmerge.symm (.refl r)⟩

/-- **A compaction** of tables whose versions of the key form a chain: a row for the
key is the newest of them. -/
theorem compacted_version {inputs : List TableRef} {merged : SortedMap Bytes Bytes} {raw : Bytes}
    (hinputs : ∀ sst ∈ inputs, ∃ es, sst.table.Legible ids es)
    (hchain : ∀ u ∈ inputVersions key inputs, ∀ v ∈ inputVersions key inputs, u ≤ v ∨ v ≤ u)
    (hmerged : inputs.foldlM compactTable SortedMap.empty = .ok merged)
    (hraw : (key, raw) ∈ merged.toList) :
    ∃ o, LWWRegister.deserialize raw = .ok o ∧ (∃ w ∈ inputVersions key inputs, o ≤ w) ∧
      o ∈ upperBounds (inputVersions key inputs) := by
  have hbound : key ≤ scanBound :=
    le_scanBound_of_compacted hmerged (List.mem_map_of_mem (f := Prod.fst) hraw)
  -- inputs are scanned up to the bound, which the key is within
  have hscan : ∀ sst ∈ inputs, sst.table.scan [] scanBound = .ok (scannedRows sst) := by
    intro sst hsst
    obtain ⟨es, hes⟩ := hinputs sst hsst
    rw [scannedRows_eq (hes.scan scanBound), hes.scan scanBound]
  have hrows : Rows (Held ids) (inputs.flatMap scannedRows) := by
    intro e he
    obtain ⟨sst, hsst, he⟩ := List.mem_flatMap.mp he
    obtain ⟨es, hes⟩ := hinputs sst hsst
    rw [scannedRows_eq (hes.scan scanBound)] at he
    exact hes.held e (List.mem_of_mem_filter he)
  -- what is held fits, so no partial merge is too long for its field
  have hpartials : PartialsFit ([] ++ inputs.flatMap scannedRows) := partialsFit_of_held hrows
  have hempty : Folded [] SortedMap.empty := fun key => ⟨[], rfl, rfl⟩
  obtain ⟨merged', hmerged', hfolded⟩ := folded_rows hempty hpartials
  rw [foldlM_compactTable scannedRows hscan, hmerged'] at hmerged
  obtain rfl := Except.ok.inj hmerged
  rw [List.nil_append] at hfolded
  obtain ⟨regs, hregs, hget⟩ := hfolded key
  rw [SortedMap.get?_eq_some_iff.mpr hraw, Option.map_some] at hget
  obtain ⟨o, ho, hread⟩ := Option.map_eq_some_iff.mp hget.symm
  -- the registers that are merged are the versions of the inputs
  have hmem : ∀ r, r ∈ regs ↔ r ∈ inputVersions key inputs := by
    intro r
    rw [Except.mem_of_mapM hregs]
    constructor
    · rintro ⟨raw', hraw', hr⟩
      obtain ⟨⟨k, raw''⟩, hrow, rfl⟩ := List.mem_map.mp hraw'
      obtain ⟨hrow, hkey⟩ := List.mem_filter.mp hrow
      have hk : k = key := of_decide_eq_true hkey
      obtain ⟨sst, hsst, hrow⟩ := List.mem_flatMap.mp hrow
      obtain ⟨es, hes⟩ := hinputs sst hsst
      rw [scannedRows_eq (hes.scan scanBound), hk] at hrow
      exact ⟨sst, hsst, hes.version_iff.mpr ⟨_, List.mem_of_mem_filter hrow, hr⟩⟩
    · rintro ⟨sst, hsst, hversion⟩
      obtain ⟨es, hes⟩ := hinputs sst hsst
      obtain ⟨raw', hraw', hr⟩ := hes.version_iff.mp hversion
      refine ⟨raw', List.mem_map.mpr ⟨(key, raw'), List.mem_filter.mpr ⟨?_, decide_eq_true rfl⟩, rfl⟩, hr⟩
      refine List.mem_flatMap.mpr ⟨sst, hsst, ?_⟩
      rw [scannedRows_eq (hes.scan scanBound)]
      exact List.mem_filter.mpr ⟨hraw', SSTable.inRange_nil.mpr hbound⟩
  -- along a chain the merge is its newest member
  obtain ⟨⟨w, hw, hsame⟩, hover⟩ := mergeAll_chain
    (fun u hu v hv => hchain u ((hmem u).mp hu) v ((hmem v).mp hv)) ho
  exact ⟨o, hread.symm, ⟨w, (hmem w).mp hw, .inr hsame⟩, fun u hu => hover u ((hmem u).mpr hu)⟩

end ZenithDB

end Zenith
