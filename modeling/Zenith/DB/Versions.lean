import Zenith.Crdt.Absorb
import Zenith.Crdt.ClockIds
import Zenith.DB.ScanMerge

/-!
# Zenith — the versions of a key

A database holds a version of a key in each memtable that the key was written to, and copies
and merges of frozen versions in tables. `get_crdt` stops at the newest one, `scan_crdt`
merges them all. Both see the same register as long as every version absorbs the older ones
(`Chain`): then any merge of versions is one of them, and the order in which a scan merges
does not matter.

Versions are those of memtables. Memtables stay in the list when they are flushed, so a row
of a table is a copy of a version in a memtable, or a merge of such (`Kept`), and no clause
about the age of tables is needed. This holds within the life of one process; after a
restart the tables have versions of their own.

Two registers of one value whose clocks have the same counters are the `Same` as far as
reads can tell, although their clocks may be stored differently. All statements about what
is read are up to that.

Sizes are a matter of ids: `Held` is what can be stored without a length field that
overflows, when all clocks have their ids in one list. Clocks only ever get ids that some
member of the cluster has, so the list is fixed for a run.

`Ordered` is the invariant. It is kept by local writes without a condition but the counter's
bound, since the local clock is above everything; by a write from a peer when the register
displaces what is frozen (`Displaces`); and by the worker.

Main results: `mergeable_kept`, by which tables keep to versions of frozen memtables,
`Ordered.point` and `Ordered.scan` for the two reads, `Ordered.put` and `Ordered.putCrdt`
for writes.
-/

namespace Zenith

open Bytes VectorClock

namespace ZenithDB

variable {ids : List NodeID}

-- ---------------------------------------------------------------------------
-- Sizes
-- ---------------------------------------------------------------------------

/-- A record with this key, this value and any clock of these ids fits a block. -/
def Fits (ids : List NodeID) (key value : Bytes) : Prop :=
  28 + clockSize ids + key.length + value.length < 2 ^ 32

instance (ids : List NodeID) (key value : Bytes) : Decidable (Fits ids key value) :=
  inferInstanceAs (Decidable (_ < _))

/-- The bytes are those of a register that fits. -/
def Held (ids : List NodeID) (key raw : Bytes) : Prop :=
  ∃ r : LWWRegister, raw = r.serialize ∧ r.clock.Within ids ∧ Fits ids key r.value

theorem read_of_fits {key : Bytes} {r : LWWRegister} (hids : r.clock.Within ids)
    (hfits : Fits ids key r.value) : LWWRegister.deserialize r.serialize = .ok r := by
  have hlen := length_serialize_le hids
  unfold Fits at hfits
  exact LWWRegister.deserialize_serialize (show r.clock.serialize.length < 2 ^ 32 by omega)

theorem Held.read {key raw : Bytes} (h : Held ids key raw) :
    ∃ r, LWWRegister.deserialize raw = .ok r ∧ raw = r.serialize ∧ r.clock.Within ids ∧
      Fits ids key r.value := by
  obtain ⟨r, rfl, hids, hfits⟩ := h
  exact ⟨r, read_of_fits hids hfits, rfl, hids, hfits⟩

theorem Held.entryFits {key raw : Bytes} (h : Held ids key raw) : SSTable.EntryFits (key, raw) := by
  obtain ⟨r, rfl, hids, hfits⟩ := h
  have hlen := length_serialize_le hids
  have hsize := r.length_serialize
  unfold Fits at hfits
  show 24 + key.length + r.serialize.length < 2 ^ 32
  omega

/-- A merge of registers that fit is one that fits. -/
theorem fits_merge {key : Bytes} {r o : LWWRegister} (hr : r.clock.Within ids)
    (ho : o.clock.Within ids) (hrfits : Fits ids key r.value) (hofits : Fits ids key o.value) :
    (r.merge o).clock.Within ids ∧ Fits ids key (r.merge o).value := by
  constructor
  · unfold LWWRegister.merge
    split
    · exact ho
    · exact hr.merge ho
    · exact hr.merge ho
    · exact hr.merge ho
  · rcases LWWRegister.value_merge r o with h | h <;> rw [h] <;> assumption

-- ---------------------------------------------------------------------------
-- Versions and chains
-- ---------------------------------------------------------------------------

/-- The register that a memtable holds for a key. -/
def Version (mt : MemTable) (key : Bytes) (r : LWWRegister) : Prop :=
  ∃ raw, (key, raw) ∈ mt.sortedEntries ∧ LWWRegister.deserialize raw = .ok r

theorem Version.unique {mt : MemTable} {key : Bytes} {r u : LWWRegister} (hr : Version mt key r)
    (hu : Version mt key u) : r = u := by
  obtain ⟨raw, hraw, hr⟩ := hr
  obtain ⟨raw', hraw', hu⟩ := hu
  have hget := SortedMap.get?_eq_some_iff.mpr hraw
  rw [SortedMap.get?_eq_some_iff.mpr hraw'] at hget
  obtain rfl := Option.some.inj hget
  exact Except.ok.inj (hr.symm.trans hu)

/-- Every version absorbs the versions of its key in older memtables. -/
def Chain (mts : List MemTable) : Prop :=
  mts.Pairwise fun new old => ∀ key r u, Version new key r → Version old key u → r.Absorbs u

/-- Of two versions of a key one absorbs the other. -/
theorem Chain.total {mts : List MemTable} (h : Chain mts) {a b : MemTable} (ha : a ∈ mts)
    (hb : b ∈ mts) {key : Bytes} {r u : LWWRegister} (hr : Version a key r) (hu : Version b key u) :
    r.Absorbs u ∨ u.Absorbs r := by
  let R : MemTable → MemTable → Prop := fun a b => ∀ key r u, Version a key r → Version b key u →
    r.Absorbs u ∨ u.Absorbs r
  have : Std.Symm R := ⟨fun a b hab key r u hr hu => (hab key u r hu hr).symm⟩
  have hself : ∀ a ∈ mts, R a a := by
    intro a _ key r u hr hu
    rw [hr.unique hu]
    exact .inl (.refl u)
  have hpairs : mts.Pairwise R := h.imp fun hnew key r u hr hu => .inl (hnew key r u hr hu)
  exact List.Pairwise.forall_of_forall hself hpairs ha hb key r u hr hu

/-- No reader can tell the bytes from a version of the key in one of the memtables. -/
def Copied (mts : List MemTable) (key raw : Bytes) : Prop :=
  ∃ r u mt, LWWRegister.deserialize raw = .ok r ∧ mt ∈ mts ∧ Version mt key u ∧ u.Same r

/-- What a table may hold: bytes that fit, and nothing but versions. -/
def Kept (ids : List NodeID) (mts : List MemTable) (key raw : Bytes) : Prop :=
  Held ids key raw ∧ Copied mts key raw

/-- More memtables. -/
theorem Kept.mono {mts mts' : List MemTable} (hsub : ∀ mt ∈ mts, mt ∈ mts') {key raw : Bytes}
    (h : Kept ids mts key raw) : Kept ids mts' key raw := by
  obtain ⟨hheld, r, u, mt, hr, hmt, hu, hsame⟩ := h
  exact ⟨hheld, r, u, mt, hr, hsub mt hmt, hu, hsame⟩

/-- The rows of a memtable are versions themselves. -/
theorem kept_of_mem {mts : List MemTable} {mt : MemTable} (hmt : mt ∈ mts) {e : Entry}
    (he : e ∈ mt.sortedEntries) (hheld : Held ids e.1 e.2) : Kept ids mts e.1 e.2 := by
  obtain ⟨r, hr, -⟩ := hheld.read
  exact ⟨hheld, r, r, mt, hr, hmt, ⟨e.2, he, hr⟩, .refl r⟩

/-- **Merges of versions are versions**, when the versions form a chain. -/
theorem mergeable_kept {mts : List MemTable} (h : Chain mts) : Mergeable (Kept ids mts) where
  fits key raw hkept := hkept.1.entryFits
  merge key a b ha hb := by
    obtain ⟨r, hr, -, hrids, hrfits⟩ := ha.1.read
    obtain ⟨o, ho, -, hoids, hofits⟩ := hb.1.read
    obtain ⟨-, r', u, mt, hr', hmt, hu, hur⟩ := ha
    obtain ⟨-, o', v, mt', ho', hmt', hv, hvo⟩ := hb
    obtain rfl := Except.ok.inj (hr'.symm.trans hr)
    obtain rfl := Except.ok.inj (ho'.symm.trans ho)
    obtain ⟨hmids, hmfits⟩ := fits_merge hrids hoids hrfits hofits
    refine ⟨r', o', hr, ho, ⟨_, rfl, hmids, hmfits⟩, ?_⟩
    have hback := read_of_fits hmids hmfits
    -- the version that absorbs the other one survives
    rcases h.total hmt hmt' hu hv with habs | habs
    · have hsame := (habs.congr hur hvo).merge_left
      exact ⟨_, u, mt, hback, hmt, hu, hur.trans hsame.symm⟩
    · have hsame := (habs.congr hvo hur).merge_right
      exact ⟨_, v, mt', hback, hmt', hv, hvo.trans hsame.symm⟩

-- ---------------------------------------------------------------------------
-- The invariant
-- ---------------------------------------------------------------------------

/-- A version that is no longer written to. -/
def Frozen (db : ZenithDB) (key : Bytes) (u : LWWRegister) : Prop :=
  ∃ node ∈ db.immut, Version node.mt key u

/-- Every version absorbs the older ones, tables hold nothing but frozen versions, and
the local clock is above all of them. -/
structure Ordered (ids : List NodeID) (db : ZenithDB) : Prop where
  node : db.nodeId ∈ ids
  clock : db.localClock.Within ids
  active : Rows (Held ids) db.activeMem.sortedEntries
  settled : Settled (Kept ids (db.immut.map (·.mt))) db
  chain : Chain db.memtables
  below : ∀ mt ∈ db.memtables, ∀ key r, Version mt key r → r.clock ≤ db.localClock

variable {db : ZenithDB}

/-- A fresh database has no versions. -/
theorem ordered_fresh {nodeId : NodeID} (hnode : nodeId ∈ ids) (counter : Nat) :
    Ordered ids (fresh nodeId counter) where
  node := hnode
  clock := within_empty
  active := fun _ he => absurd he List.not_mem_nil
  settled := (stores_fresh nodeId counter).settled
  chain := List.pairwise_singleton _ _
  below mt hmt key r hr := by
    rw [show (fresh nodeId counter).memtables = [.new] from rfl, List.mem_singleton] at hmt
    rw [hmt] at hr
    obtain ⟨raw, hraw, -⟩ := hr
    exact absurd hraw List.not_mem_nil

/-- All layers hold versions. -/
theorem Ordered.stores (h : Ordered ids db) : Stores (Kept ids db.memtables) db :=
  (h.settled.mono fun _ _ hkept => hkept.mono fun _ hmt => List.mem_cons_of_mem _ hmt).stores
    fun e he => kept_of_mem (List.mem_cons_self ..) he (h.active e he)

-- ---------------------------------------------------------------------------
-- Reads
-- ---------------------------------------------------------------------------

/-- The version that absorbs all versions of its key. -/
def Newest (db : ZenithDB) (key : Bytes) (v : LWWRegister) : Prop :=
  (∃ mt ∈ db.memtables, Version mt key v) ∧ ∀ mt ∈ db.memtables, ∀ u, Version mt key u → v.Absorbs u

/-- **Point reads** find the newest version. -/
theorem Ordered.point (h : Ordered ids db) (key : Bytes) :
    (∃ v, Newest db key v ∧ db.getCrdt key = .ok (if v.value = [] then none else some v)) ∨
      (∀ mt ∈ db.memtables, ∀ u, ¬ Version mt key u) ∧ db.getCrdt key = .ok none := by
  have hrows := h.stores.memtables
  -- no row is empty, so a memtable is passed over only if it has no row for the key
  have hpassed : ∀ mt ∈ db.memtables, mt.probe key = none → ∀ u, ¬ Version mt key u := by
    rintro mt hmt hprobe u ⟨raw, hraw, -⟩
    obtain ⟨r, -, rfl, -⟩ := (hrows mt hmt _ hraw).1.read
    rw [MemTable.probe_of_get (SortedMap.get?_eq_some_iff.mpr hraw) r.serialize_ne_nil] at hprobe
    exact absurd hprobe (by simp)
  -- without a memtable that answers, a table could only have a version that some memtable has
  cases hmem : db.lookupMem key with
  | none =>
    right
    have hnone : ∀ mt ∈ db.memtables, ∀ u, ¬ Version mt key u := fun mt hmt =>
      hpassed mt hmt (List.findSome?_eq_none_iff.mp hmem mt hmt)
    refine ⟨hnone, ?_⟩
    obtain ⟨found, hlookup, hkept⟩ := h.stores.lookup key
    cases found with
    | none =>
      unfold ZenithDB.getCrdt
      rw [hlookup]
      rfl
    | some raw =>
      obtain ⟨-, r, u, mt, -, hmt, hu, -⟩ := hkept raw rfl
      exact absurd hu (hnone mt hmt u)
  | some raw =>
    left
    unfold lookupMem at hmem
    obtain ⟨before, mt, after, hsplit, hprobe, hbefore⟩ := List.findSome?_eq_some_iff.mp hmem
    have hmt : mt ∈ db.memtables := by
      rw [hsplit]
      exact List.mem_append_right _ (List.mem_cons_self ..)
    have hraw := SortedMap.get?_eq_some_iff.mp (MemTable.get_of_probe hprobe)
    obtain ⟨v, hv, -⟩ := (hrows mt hmt _ hraw).1.read
    refine ⟨v, ⟨⟨mt, hmt, raw, hraw, hv⟩, ?_⟩, ?_⟩
    · intro mt' hmt' u hu
      -- memtables behind the one that answers have older versions only
      have hchain := h.chain
      unfold Chain at hchain
      rw [hsplit, List.pairwise_append, List.pairwise_cons] at hchain
      rw [hsplit, List.mem_append, List.mem_cons] at hmt'
      rcases hmt' with hin | rfl | hin
      · refine absurd hu (hpassed mt' ?_ (hbefore mt' hin) u)
        rw [hsplit]
        exact List.mem_append_left _ hin
      · rw [hu.unique ⟨raw, hraw, hv⟩]
        exact .refl v
      · exact hchain.2.1.1 mt' hin key v u ⟨raw, hraw, hv⟩ hu
    · unfold ZenithDB.getCrdt ZenithDB.lookup
      rw [show db.lookupMem key = some raw from hmem]
      dsimp only
      rw [Except.ok_bind, readRegister, hv]
      rfl

/-- **Range reads** return every live newest version in range, once, and nothing else. -/
theorem Ordered.scan (h : Ordered ids db) (p : Platform) (start stop : Bytes) :
    ∃ out, db.scanCrdt p start stop = .ok out ∧ (out.map Prod.fst).Pairwise (· < ·) ∧
      (∀ key reg, (key, reg) ∈ out → start ≤ key ∧ key ≤ stop ∧
        ∃ v, db.getCrdt key = .ok (some v) ∧ v.Same reg) ∧
      ∀ key v, start ≤ key → key ≤ stop → db.getCrdt key = .ok (some v) →
        ∃ reg, (key, reg) ∈ out ∧ v.Same reg := by
  obtain ⟨out, finalRaw, hscan, hascending, hmem, hrows, hunique, hrange, hcovers⟩ :=
    h.stores.scanCrdt (mergeable_kept h.chain) p start stop
  -- the row that is left for a key is its newest version
  have hrow : ∀ key v raw, Newest db key v → (key, raw) ∈ finalRaw →
      ∃ r, LWWRegister.deserialize raw = .ok r ∧ v.Same r := by
    rintro key v raw ⟨⟨mt, hmt, vraw, hvraw, hv⟩, habs⟩ hraw
    obtain ⟨hstart, hstop⟩ := hrange _ hraw
    obtain ⟨-, r, u, mt', hr, hmt', hu, hsame⟩ := hrows _ hraw
    obtain ⟨e, he, hekey, r', s, hr', hs, hle⟩ := hcovers mt hmt _ hvraw hstart hstop
    have heq : (key, e.2) ∈ finalRaw := by
      rw [show key = e.1 from hekey.symm]
      exact he
    rw [← SortedMap.lookup_eq_some_of_sorted hunique] at hraw heq
    rw [hraw] at heq
    rw [← Option.some.inj heq, hr] at hr'
    rw [hv] at hs
    obtain rfl := Except.ok.inj hr'
    obtain rfl := Except.ok.inj hs
    exact ⟨r, hr, ((habs mt' hmt' u hu).congr (.refl v) hsame).same_of_le hle⟩
  refine ⟨out, hscan, hascending, ?_, ?_⟩
  · intro key reg hout
    obtain ⟨hlive, raw, hraw, hreg⟩ := (hmem key reg).mp hout
    obtain ⟨hstart, hstop⟩ := hrange _ hraw
    refine ⟨hstart, hstop, ?_⟩
    -- a row comes from a memtable, so the point read answers from one too
    rcases h.point key with ⟨v, hv, hget⟩ | ⟨hnone, -⟩
    · obtain ⟨r, hr, hsame⟩ := hrow key v raw hv hraw
      obtain rfl := Except.ok.inj (hr.symm.trans hreg)
      rw [if_neg (by rwa [hsame.1])] at hget
      exact ⟨v, hget, hsame⟩
    · obtain ⟨-, r, u, mt, -, hmt, hu, -⟩ := hrows _ hraw
      exact absurd hu (hnone mt hmt u)
  · intro key v hstart hstop hget
    rcases h.point key with ⟨v', hv, hget'⟩ | ⟨-, hget'⟩
    · rw [hget] at hget'
      have hfound := Except.ok.inj hget'
      -- a live version is in range, so it leaves a row
      by_cases hnil : v'.value = []
      · rw [if_pos hnil] at hfound
        exact absurd hfound (by simp)
      · rw [if_neg hnil] at hfound
        obtain rfl := Option.some.inj hfound
        obtain ⟨mt, hmt, raw, hraw, -⟩ := hv.1
        obtain ⟨e, he, hekey, -⟩ := hcovers mt hmt _ hraw hstart hstop
        have hfinal : (key, e.2) ∈ finalRaw := by
          rw [show key = e.1 from hekey.symm]
          exact he
        obtain ⟨r, hr, hsame⟩ := hrow key v e.2 hv hfinal
        refine ⟨r, (hmem key r).mpr ⟨?_, e.2, hfinal, hr⟩, hsame⟩
        rwa [← hsame.1]
    · rw [hget] at hget'
      exact absurd (Except.ok.inj hget') (by simp)

-- ---------------------------------------------------------------------------
-- Writes
-- ---------------------------------------------------------------------------

/-- A register that is stored under a clock that is above it absorbs what the frozen
memtables hold for its key. -/
theorem Ordered.storeRecord (h : Ordered ids db) {clock : VectorClock} (hclock : clock.Within ids)
    (hle : db.localClock ≤ clock) (usage : Nat) {key : Bytes} {w : LWWRegister}
    (hids : w.clock.Within ids) (hfits : Fits ids key w.value) (hw : w.clock ≤ clock)
    (habs : ∀ u, Frozen db key u → w.Absorbs u) :
    Ordered ids ({ db with localClock := clock }.storeRecord usage key w.serialize) := by
  have hheld : Rows (Held ids) (db.activeMem.put key w.serialize).sortedEntries := by
    intro e he
    rcases SortedMap.mem_insertEntry he with rfl | hold
    · exact ⟨w, rfl, hids, hfits⟩
    · exact h.active e hold
  -- the active memtable has the new version and its other versions as before
  have hversion : ∀ k r, Version (db.activeMem.put key w.serialize) k r →
      (k = key ∧ r = w) ∨ Version db.activeMem k r := by
    rintro k r ⟨raw, hraw, hr⟩
    rcases SortedMap.mem_insertEntry hraw with heq | hold
    · obtain ⟨rfl, rfl⟩ := Prod.mk.inj heq
      exact .inl ⟨rfl, Except.ok.inj (hr.symm.trans (read_of_fits hids hfits))⟩
    · exact .inr ⟨raw, hold, hr⟩
  have hold : ∀ mt ∈ db.immut.map (·.mt), mt ∈ db.memtables := fun mt hmt =>
    List.mem_cons_of_mem _ hmt
  have hchain : Chain (db.activeMem.put key w.serialize :: db.immut.map (·.mt)) := by
    obtain ⟨hfirst, hrest⟩ := List.pairwise_cons.mp h.chain
    refine List.pairwise_cons.mpr ⟨fun mt hmt k r u hr hu => ?_, hrest⟩
    rcases hversion k r hr with ⟨rfl, rfl⟩ | hr
    · obtain ⟨node, hnode, rfl⟩ := List.mem_map.mp hmt
      exact habs u ⟨node, hnode, hu⟩
    · exact hfirst mt hmt k r u hr hu
  have hbelow : ∀ mt ∈ db.activeMem.put key w.serialize :: db.immut.map (·.mt), ∀ k r,
      Version mt k r → r.clock ≤ clock := by
    refine List.forall_mem_cons.mpr ⟨fun k r hr => ?_, fun mt hmt k r hr => ?_⟩
    · rcases hversion k r hr with ⟨rfl, rfl⟩ | hr
      · exact hw
      · exact (h.below _ (List.mem_cons_self ..) k r hr).trans hle
    · exact (h.below mt (hold mt hmt) k r hr).trans hle
  have hnew : ∀ k r, ¬ Version .new k r := by
    rintro k r ⟨raw, hraw, -⟩
    exact absurd hraw List.not_mem_nil
  unfold ZenithDB.storeRecord
  split
  · -- the memtable is frozen, its rows become versions that tables may hold
    refine ⟨h.node, hclock, fun e he => absurd he List.not_mem_nil, ?_, ?_, ?_⟩
    · have hmono : Settled (Kept ids (db.activeMem.put key w.serialize :: db.immut.map (·.mt))) db :=
        h.settled.mono fun _ _ hkept => hkept.mono fun _ hmt => List.mem_cons_of_mem _ hmt
      refine ⟨List.forall_mem_cons.mpr ⟨fun e he => ?_, hmono.frozen⟩, hmono.layout, hmono.worker,
        hmono.files⟩
      exact kept_of_mem (List.mem_cons_self ..) he (hheld e he)
    · exact List.pairwise_cons.mpr ⟨fun mt hmt k r u hr => absurd hr (hnew k r), hchain⟩
    · exact List.forall_mem_cons.mpr ⟨fun k r hr => absurd hr (hnew k r), hbelow⟩
  · exact ⟨h.node, hclock, hheld, ⟨h.settled.frozen, h.settled.layout, h.settled.worker,
      h.settled.files⟩, hchain, hbelow⟩

/-- **A local write** is later than everything the database has seen. -/
theorem Ordered.put (h : Ordered ids db) (usage : Nat) {key value : Bytes}
    (hfits : Fits ids key value) (hcount : (db.localClock.get db.nodeId).toNat + 1 < 2 ^ 64) :
    Ordered ids (db.put usage key value) := by
  have hlt : db.localClock < db.localClock.increment db.nodeId := VectorClock.lt_increment hcount
  refine h.storeRecord (h.clock.increment h.node) hlt.le usage (h.clock.increment h.node) hfits
    (le_refl _) ?_
  rintro u ⟨node, hnode, hu⟩
  have hbelow := h.below node.mt (List.mem_cons_of_mem _ (List.mem_map_of_mem hnode)) key u hu
  exact .inl (lt_of_le_of_lt hbelow hlt)

/-- When an incoming register may take the place of what is read of its key, for the
sake of a frozen version: it has to absorb the version if nothing is read, and may
not have the clock of a live register that is frozen with another value. -/
def Displaces (existing : Option LWWRegister) (incoming u : LWWRegister) : Prop :=
  match existing with
  | none => incoming.Absorbs u
  | some v => v.Same u → incoming.clock ≤ v.clock → v.clock ≤ incoming.clock → incoming.value = v.value

/-- **A write from a peer.** -/
theorem Ordered.putCrdt (h : Ordered ids db) (usage : Nat) {key : Bytes} {incoming : LWWRegister}
    (hids : incoming.clock.Within ids) (hfits : Fits ids key incoming.value)
    (hdisplaces : ∀ existing, db.getCrdt key = .ok existing →
      ∀ u, Frozen db key u → Displaces existing incoming u) :
    ∃ db' existing, db.getCrdt key = .ok existing ∧ db.putCrdt usage key incoming = .ok db' ∧
      Ordered ids db' := by
  have hclock := h.clock.merge hids
  have hle := VectorClock.le_merge_left db.localClock incoming.clock
  have hincoming := VectorClock.le_merge_right db.localClock incoming.clock
  -- what is stored, given what is read
  have hstore : ∀ existing, db.getCrdt key = .ok existing →
      (resolve incoming existing).clock.Within ids → Fits ids key (resolve incoming existing).value →
      (resolve incoming existing).clock ≤ db.localClock.merge incoming.clock →
      (∀ u, Frozen db key u → (resolve incoming existing).Absorbs u) →
      ∃ db' existing, db.getCrdt key = .ok existing ∧ db.putCrdt usage key incoming = .ok db' ∧
        Ordered ids db' := by
    intro existing hget hwids hwfits hw habs
    refine ⟨_, existing, hget, ?_, h.storeRecord hclock hle usage hwids hwfits hw habs⟩
    unfold ZenithDB.putCrdt
    rw [hget]
    rfl
  have hnone : db.getCrdt key = .ok none → ∃ db' existing, db.getCrdt key = .ok existing ∧
      db.putCrdt usage key incoming = .ok db' ∧ Ordered ids db' := fun hget =>
    hstore none hget hids hfits hincoming (hdisplaces none hget)
  rcases h.point key with ⟨v, ⟨⟨mt, hmt, hv⟩, habs⟩, hget⟩ | ⟨-, hget⟩
  · by_cases hnil : v.value = []
    · rw [if_pos hnil] at hget
      exact hnone hget
    · rw [if_neg hnil] at hget
      obtain ⟨raw, hraw, hread⟩ := hv
      obtain ⟨v', hread', -, hvids, hvfits⟩ := (h.stores.memtables mt hmt _ hraw).1.read
      obtain rfl := Except.ok.inj (hread'.symm.trans hread)
      obtain ⟨hwids, hwfits⟩ := fits_merge hids hvids hfits hvfits
      have hvbelow := (h.below mt hmt key v' ⟨raw, hraw, hread⟩).trans hle
      refine hstore (some v') hget hwids hwfits (LWWRegister.clock_merge_le hincoming hvbelow) ?_
      rintro u ⟨node, hnode, hu⟩
      rcases habs node.mt (List.mem_cons_of_mem _ (List.mem_map_of_mem hnode)) u hu with hlt | hsame
      · exact .inl (lt_of_lt_of_le hlt (LWWRegister.clock_le_merge_right incoming v'))
      · -- the live register itself is frozen
        have hmerge := LWWRegister.merge_absorbs_right
          (hdisplaces (some v') hget u ⟨node, hnode, hu⟩ hsame)
        exact hmerge.trans (.inr hsame)
  · exact hnone hget

end ZenithDB

end Zenith
