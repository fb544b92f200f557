import Zenith.DB.Clocks

/-!
# Zenith — the store as a map of registers

What a database is for, without memtables, tables and tombstones: a clock, and one register
for each key that has a value (`RegisterMap`). A write that leaves an empty value takes the
key out of the map; the background worker does nothing.

Every database refines this map. The relation `Refines` says that point reads are those of
the map, and that no layer holds a key that the memtables do not have: behind a memtable
lookup that finds nothing there is nothing. The second part is what a run from an empty
directory gives. It is why the map need not know of tables at all: a version in a table is
always hidden by one in a memtable, because frozen memtables are not dropped while the
process runs.

A write is the same on both sides once the read before it is, since `put_crdt` merges with
what `get_crdt` returns; `Refines.storeRecord` is the one lemma about storing, for local
writes and deliveries alike. A step of the worker changes tables and leaves the memtables,
so all it has to keep is the second part.

The refinement asks of a run that its records fit their length fields (`Enters`), without
which a register that is read back is not the one that was stored. The order of clocks is a
fact about the map alone (`perform_moves`), and it needs that the counter of a local write
does not wrap around (`Admitted`): behind `2 ^ 64 - 1` comes `0`. Both are about runs from
an empty directory. After a restart the clock starts again, and a put may show an earlier
clock than the register it replaces.

Main results:

* `refines_register_map` — after every run the reads and the clock are those of the map;
* `monotonic_reads` — the clock that is read for a key goes up until the key is removed.
-/

namespace Zenith

open Bytes VectorClock

-- ---------------------------------------------------------------------------
-- The abstract store
-- ---------------------------------------------------------------------------

/-- A register that reads show. -/
def LiveRegister := { r : LWWRegister // r.value ≠ [] }

/-- The store as its clients see it. That a register which is shown is no tombstone is in
its type, so that reading the map never has to filter. -/
structure RegisterMap where
  nodeId : NodeID
  localClock : VectorClock
  live : Bytes → Option LiveRegister

namespace RegisterMap

/-- The map of a directory without files. -/
def empty (nodeId : NodeID) : RegisterMap := ⟨nodeId, .empty, fun _ => none⟩

def read (m : RegisterMap) (key : Bytes) : Option LWWRegister := (m.live key).map Subtype.val

/-- The key shows the register, or nothing if the register is a tombstone. -/
def store (m : RegisterMap) (clock : VectorClock) (key : Bytes) (reg : LWWRegister) : RegisterMap :=
  { m with
    localClock := clock
    live := Function.update m.live key (if h : reg.value = [] then none else some ⟨reg, h⟩) }

/-- A step of the store. The background worker does nothing. -/
def perform (m : RegisterMap) : ZenithDB.Action → RegisterMap
  | .put _ key value =>
    let clock := m.localClock.increment m.nodeId
    m.store clock key ⟨value, clock⟩
  | .putCrdt _ key incoming =>
    m.store (m.localClock.merge incoming.clock) key (ZenithDB.resolve incoming (m.read key))
  | .work _ => m
  | .otherNames _ => m

/-- The map after a list of steps. It is total: the map has no disk that could fail. -/
def performAll (m : RegisterMap) (as : List ZenithDB.Action) : RegisterMap := as.foldl perform m

variable {m : RegisterMap}

theorem read_store (m : RegisterMap) (clock : VectorClock) (key : Bytes) (reg : LWWRegister)
    (k : Bytes) : (m.store clock key reg).read k =
      if k = key then (if reg.value = [] then none else some reg) else m.read k := by
  unfold read store
  dsimp only
  by_cases hk : k = key
  · subst hk
    rw [Function.update_self, if_pos rfl]
    split_ifs <;> rfl
  · rw [Function.update_of_ne hk, if_neg hk]

/-- All registers that the map shows are at most as late as its clock. This is what makes a
local write the latest of all. -/
def Bounded (m : RegisterMap) : Prop := ∀ key r, m.read key = some r → r.clock ≤ m.localClock

theorem bounded_empty (nodeId : NodeID) : (empty nodeId).Bounded := by
  intro key r h
  rw [show (empty nodeId).read key = none from rfl] at h
  exact absurd h (by simp)

/-- The counter of the next local write does not wrap around. -/
def Counts (m : RegisterMap) : ZenithDB.Action → Prop
  | .put _ _ _ => (m.localClock.get m.nodeId).toNat + 1 < 2 ^ 64
  | .putCrdt _ _ _ => True
  | .work _ => True
  | .otherNames _ => True

/-- What a step does to one key: it stays, it goes, or a register with a later clock
takes its place. -/
inductive Moves (m m' : RegisterMap) (key : Bytes) : Prop
  | stays (h : m'.read key = m.read key)
  | goes (h : m'.read key = none)
  | later (reg : LWWRegister) (h : m'.read key = some reg) (hle : reg.clock ≤ m'.localClock)
      (hlater : ∀ r, m.read key = some r → r.clock ≤ reg.clock)

/-- **One step** of the map, seen from one key. The clock of the map does not go down. -/
theorem perform_moves (h : m.Bounded) {a : ZenithDB.Action} (hcount : m.Counts a) (key : Bytes) :
    Moves m (m.perform a) key ∧ m.localClock ≤ (m.perform a).localClock := by
  -- the register that a write leaves, for its own key and for the others
  have hstore : ∀ clock k reg, reg.clock ≤ clock → (∀ r, m.read k = some r → r.clock ≤ reg.clock) →
      Moves m (m.store clock k reg) key := by
    intro clock k reg hle hlater
    have hread := m.read_store clock k reg key
    by_cases hk : key = k
    · subst hk
      rw [if_pos rfl] at hread
      by_cases hnil : reg.value = []
      · rw [if_pos hnil] at hread
        exact .goes hread
      · rw [if_neg hnil] at hread
        exact .later reg hread hle hlater
    · rw [if_neg hk] at hread
      exact .stays hread
  -- a local write is later than all registers of the map, and a delivery is merged into both
  -- the clock and the register it meets
  cases a with
  | put usage k value =>
    have hlt : m.localClock < m.localClock.increment m.nodeId := VectorClock.lt_increment hcount
    exact ⟨hstore _ k ⟨value, _⟩ (le_refl _) fun r hr => (h k r hr).trans hlt.le, hlt.le⟩
  | putCrdt usage k incoming =>
    have hle := VectorClock.le_merge_left m.localClock incoming.clock
    have hincoming := VectorClock.le_merge_right m.localClock incoming.clock
    refine ⟨hstore _ k _ ?_ ?_, hle⟩
    · cases hread : m.read k with
      | none => exact hincoming
      | some v => exact LWWRegister.clock_merge_le hincoming ((h k v hread).trans hle)
    · intro r hr
      rw [hr]
      exact LWWRegister.clock_le_merge_right incoming r
  | work time => exact ⟨.stays rfl, le_refl _⟩
  | otherNames n => exact ⟨.stays rfl, le_refl _⟩

theorem bounded_perform (h : m.Bounded) {a : ZenithDB.Action} (hcount : m.Counts a) :
    (m.perform a).Bounded := by
  intro key r hr
  obtain ⟨hmoves, hle⟩ := perform_moves h hcount key
  cases hmoves with
  | stays hsame =>
    rw [hsame] at hr
    exact (h key r hr).trans hle
  | goes hnone =>
    rw [hnone] at hr
    exact absurd hr (by simp)
  | later reg hreg hbelow hlater =>
    rw [hreg] at hr
    rw [← Option.some.inj hr]
    exact hbelow

end RegisterMap

namespace ZenithDB

variable {ids : List NodeID} {db : ZenithDB} {m : RegisterMap} {p : Platform}

-- ---------------------------------------------------------------------------
-- The refinement
-- ---------------------------------------------------------------------------

/-- Bytes that fit, for a key of a given kind. The kind is the parameter that the refinement
sets to the keys of the memtables. -/
def Keyed (ids : List NodeID) (K : Bytes → Prop) (key raw : Bytes) : Prop := Held ids key raw ∧ K key

/-- One of the memtables has the key. -/
def Present (mts : List MemTable) (key : Bytes) : Prop :=
  ∃ mt ∈ mts, ∃ newer, (key, newer) ∈ mt.sortedEntries

theorem mergeable_keyed (K : Bytes → Prop) : Mergeable (Keyed ids K) where
  fits key raw h := h.1.entryFits
  merge key a b ha hb := by
    obtain ⟨r, hr, -, hrids, hrfits⟩ := ha.1.read
    obtain ⟨o, ho, -, hoids, hofits⟩ := hb.1.read
    obtain ⟨hids, hfits⟩ := fits_merge hrids hoids hrfits hofits
    exact ⟨r, o, hr, ho, ⟨_, rfl, hids, hfits⟩, ha.2⟩

/-- How a database stands to the map it refines. The first two fields bound the clock to the
ids of the cluster, so that the next register fits; `stores` says that the tables hold no
key but those of the memtables. -/
structure Refines (ids : List NodeID) (db : ZenithDB) (m : RegisterMap) : Prop where
  node : db.nodeId ∈ ids
  clock : db.localClock.Within ids
  nodeId : db.nodeId = m.nodeId
  localClock : db.localClock = m.localClock
  stores : Stores (Keyed ids (Present db.memtables)) db
  reads : ∀ key, db.getCrdt key = .ok (m.read key)

theorem refines_fresh {nodeId : NodeID} (hnode : nodeId ∈ ids) (counter : Nat) :
    Refines ids (fresh nodeId counter) (.empty nodeId) where
  node := hnode
  clock := within_empty
  nodeId := rfl
  localClock := rfl
  stores := stores_fresh nodeId counter
  reads key := by
    unfold getCrdt lookup
    rw [show (fresh nodeId counter).lookupMem key = none from rfl]
    dsimp only
    rw [show (fresh nodeId counter).layout = List.replicate 7 [] from rfl,
      lookupLevels_replicate_nil]
    rfl

/-- Behind a memtable lookup that finds nothing there is nothing. -/
theorem Stores.getCrdt_none (h : Stores (Keyed ids (Present db.memtables)) db) {key : Bytes}
    (hmem : db.lookupMem key = none) : db.getCrdt key = .ok none := by
  obtain ⟨found, hlookup, hfound⟩ := h.lookup key
  cases found with
  | none =>
    unfold ZenithDB.getCrdt
    rw [hlookup]
    rfl
  | some raw =>
    -- the memtable that has the key would have answered
    obtain ⟨-, mt, hmt, newer, hentry⟩ := hfound raw rfl
    obtain ⟨r, -, rfl, -⟩ := (h.memtables mt hmt _ hentry).1.read
    have hprobe := List.findSome?_eq_none_iff.mp hmem mt hmt
    rw [MemTable.probe_of_get (SortedMap.get?_eq_some_iff.mpr hentry) r.serialize_ne_nil] at hprobe
    exact absurd hprobe (by simp)

/-- What is read of a key depends on the memtable lookup alone. -/
theorem getCrdt_eq_of_lookupMem {db' : ZenithDB} (h : Stores (Keyed ids (Present db.memtables)) db)
    (h' : Stores (Keyed ids (Present db'.memtables)) db') {key : Bytes}
    (hmem : db'.lookupMem key = db.lookupMem key) : db'.getCrdt key = db.getCrdt key := by
  cases hlookup : db.lookupMem key with
  | none => rw [h.getCrdt_none hlookup, h'.getCrdt_none (hmem.trans hlookup)]
  | some raw => rw [getCrdt_of_lookupMem hlookup, getCrdt_of_lookupMem (hmem.trans hlookup)]

/-- A write of a register that fits. The memtables gain the key, and perhaps freeze; the
tables are as they were, and their keys are still among those of the memtables. -/
theorem Refines.storeRecord (h : Refines ids db m) {clock : VectorClock} (hclock : clock.Within ids)
    (usage : Nat) {key : Bytes} {reg : LWWRegister} (hids : reg.clock.Within ids)
    (hfits : Fits ids key reg.value) :
    Refines ids ({ db with localClock := clock }.storeRecord usage key reg.serialize)
      (m.store clock key reg) := by
  generalize hdb' : { db with localClock := clock }.storeRecord usage key reg.serialize = db'
  have hfields : db'.nodeId = db.nodeId ∧ db'.localClock = clock := by
    rw [← hdb']
    unfold ZenithDB.storeRecord
    split <;> exact ⟨rfl, rfl⟩
  have hlookup : ∀ k, db'.lookupMem k = if k = key then some reg.serialize else db.lookupMem k := by
    intro k
    rw [← hdb']
    exact lookupMem_storeRecord { db with localClock := clock } usage reg.serialize_ne_nil k
  -- the memtables have the keys that they had, and the new one
  have hkept : ∀ k, (∃ mt ∈ db.memtables, ∃ raw, (k, raw) ∈ mt.sortedEntries) →
      ∃ mt ∈ db'.memtables, ∃ raw, (k, raw) ∈ mt.sortedEntries := by
    rintro k ⟨mt, hmt, raw, hraw⟩
    have hsome : db'.lookupMem k ≠ none := by
      rw [hlookup]
      split
      · simp
      · intro hnone
        obtain ⟨r, -, rfl, -⟩ := (h.stores.memtables mt hmt _ hraw).1.read
        have hprobe := List.findSome?_eq_none_iff.mp hnone mt hmt
        rw [MemTable.probe_of_get (SortedMap.get?_eq_some_iff.mpr hraw) r.serialize_ne_nil] at hprobe
        exact absurd hprobe (by simp)
    obtain ⟨found, hfound⟩ := Option.ne_none_iff_exists'.mp hsome
    obtain ⟨-, mt', hmt', hentry⟩ := lookupMem_mem hfound
    exact ⟨mt', hmt', found, hentry⟩
  have hnew : ∃ mt ∈ db'.memtables, ∃ raw, (key, raw) ∈ mt.sortedEntries := by
    obtain ⟨-, mt, hmt, hentry⟩ := lookupMem_mem ((hlookup key).trans (if_pos rfl))
    exact ⟨mt, hmt, _, hentry⟩
  have hstores : Stores (Keyed ids (Present db'.memtables)) db' := by
    have hmono : Stores (Keyed ids (Present db'.memtables)) db :=
      h.stores.mono fun k raw hkeyed => ⟨hkeyed.1, hkept k hkeyed.2⟩
    have hlocal : Stores (Keyed ids (Present db'.memtables)) { db with localClock := clock } :=
      ⟨hmono.memtables, hmono.layout, hmono.worker, hmono.files⟩
    have hreg : Keyed ids (Present db'.memtables) key reg.serialize := ⟨⟨reg, rfl, hids, hfits⟩, hnew⟩
    have hstored := hlocal.storeRecord usage hreg
    rwa [hdb'] at hstored
  refine ⟨by rw [hfields.1]; exact h.node, by rw [hfields.2]; exact hclock,
    hfields.1.trans h.nodeId, hfields.2, hstores, fun k => ?_⟩
  -- the key itself is read from its memtable, every other key as before
  rw [RegisterMap.read_store]
  by_cases hk : k = key
  · rw [if_pos hk, getCrdt_of_lookupMem ((hlookup k).trans (if_pos hk)),
      readRegister_of_deserialize (read_of_fits hids hfits)]
  · rw [if_neg hk, ← h.reads k]
    exact getCrdt_eq_of_lookupMem h.stores hstores ((hlookup k).trans (if_neg hk))

/-- What enters the store fits, whatever state it is in: the lengths of key, value and clock
are stored in 32 bits each. -/
def Enters (ids : List NodeID) : Action → Prop
  | .put _ key value => Fits ids key value
  | .putCrdt _ key incoming => incoming.clock.Within ids ∧ Fits ids key incoming.value
  | .work _ => True
  | .otherNames _ => True

instance (ids : List NodeID) : ∀ a, Decidable (Enters ids a)
  | .put _ key value => inferInstanceAs (Decidable (Fits ids key value))
  | .putCrdt _ key incoming =>
    inferInstanceAs (Decidable (incoming.clock.Within ids ∧ Fits ids key incoming.value))
  | .work _ => isTrue trivial
  | .otherNames _ => isTrue trivial

/-- A register that is read fits, so that it can be merged and stored again. -/
theorem Refines.read_fits (h : Refines ids db m) {key : Bytes} {v : LWWRegister}
    (hread : m.read key = some v) : v.clock.Within ids ∧ Fits ids key v.value := by
  obtain ⟨found, hget, hfound⟩ := h.stores.getCrdt (mergeable_keyed (Present db.memtables)) key
  rw [h.reads key, hread] at hget
  obtain ⟨-, raw, hraw, hreg⟩ := hfound v (Except.ok.inj hget).symm
  obtain ⟨r, hr, -, hids, hfits⟩ := hraw.1.read
  obtain rfl := Except.ok.inj (hr.symm.trans hreg)
  exact ⟨hids, hfits⟩

/-- **One step** of the database is one of the map, or fails as a write. -/
theorem Refines.step (h : Refines ids db m) (p : Platform) {a : Action} (ha : Enters ids a) :
    (ZenithDB.step p db a).Post (fun db' => Refines ids db' (m.perform a)) WriteFailed := by
  cases a with
  | put usage key value =>
    have hclock := h.clock.increment h.node
    have hput : Refines ids (db.put usage key value)
        (m.store (db.localClock.increment db.nodeId) key (db.localRegister value)) :=
      h.storeRecord hclock usage hclock ha
    unfold localRegister at hput
    rw [h.nodeId, h.localClock] at hput
    exact hput
  -- the merge has a value of one of the two, and a clock of both
  | putCrdt usage key incoming =>
    obtain ⟨hids, hfits⟩ := ha
    have hresolved : (resolve incoming (m.read key)).clock.Within ids ∧
        Fits ids key (resolve incoming (m.read key)).value := by
      cases hread : m.read key with
      | none => exact ⟨hids, hfits⟩
      | some v =>
        obtain ⟨hvids, hvfits⟩ := h.read_fits hread
        exact fits_merge hids hvids hfits hvfits
    have hput := h.storeRecord (h.clock.merge hids) usage hresolved.1 hresolved.2
    show (db.putCrdt usage key incoming).Post _ _
    unfold ZenithDB.putCrdt
    rw [h.reads key, Except.ok_bind]
    rw [h.localClock] at hput ⊢
    exact hput
  | work time =>
    apply (h.stores.work (mergeable_keyed _) p time).imp
    -- the worker moves rows between tables; no memtable changes, so each lookup finds what it
    -- found
    intro db' hwork hstores
    have hsame := work_sameMem hwork
    rw [← hsame.memtables] at hstores
    refine ⟨?_, ?_, hsame.nodeId.trans h.nodeId, hsame.localClock.trans h.localClock, hstores, ?_⟩
    · rw [hsame.nodeId]
      exact h.node
    · rw [hsame.localClock]
      exact h.clock
    · intro key
      rw [getCrdt_eq_of_lookupMem h.stores hstores (hsame.lookupMem key)]
      exact h.reads key
  | otherNames n =>
    exact ⟨h.node, h.clock, h.nodeId, h.localClock, ⟨h.stores.memtables, h.stores.layout,
      h.stores.worker, h.stores.files⟩, h.reads⟩

/-- Databases as a step system whose trace lists the actions. -/
def actionSystem (p : Platform) : System ZenithDB Action Action Fault :=
  ⟨ZenithDB.step p, fun _ a => [a]⟩

/-- A run of the database is a run of the map, by induction on it. It ends early only where
a write to the disk fails. -/
theorem refines_run (p : Platform) (h : Refines ids db m) {as : List Action}
    (henters : ∀ a ∈ as, Enters ids a) :
    ((system p).run db as).Post (fun db' => Refines ids db' (m.performAll as)) WriteFailed := by
  have halong : (actionSystem p).Along (fun _ _ a => Enters ids a) [] db as :=
    System.along_of_prefix fun before a after t has _ =>
      henters a (by rw [has]; exact List.mem_append_right _ (List.mem_cons_self ..))
  have hrun := System.run_outcome (S := actionSystem p) (F := WriteFailed)
    (P := fun done d => Refines ids d (m.performAll done)) ?_ h halong
  · apply Except.Post.imp hrun
    intro db' hok hrefines
    rw [List.nil_append, System.trace_eq_flatMap (fun _ _ => rfl) hok] at hrefines
    rwa [List.flatMap_singleton'] at hrefines
  · intro done d a hd ha
    apply Except.Post.imp (hd.step p ha)
    intro d' _ hd'
    unfold RegisterMap.performAll
    rw [List.foldl_append]
    exact hd'

/-- **Refinement.** After every run from an empty directory whose records fit their length
fields, point reads and the local clock are those of the map of registers that performs the
same writes, or else the run stopped at a failed write. Where versions lie, what the worker
has done and which removals are remembered cannot be observed.

`henters` is the only assumption about the steps: what is put fits its length fields, with a
clock over the ids `ids`, of which the node's own is one (`hnode`). The order of the steps,
the times of rotations and what the worker does between them are free, and a counter may
wrap. -/
theorem refines_register_map (p : Platform) {nodeId : NodeID} (hnode : nodeId ∈ ids)
    (counter : Nat) {as : List Action} (henters : ∀ a ∈ as, Enters ids a) :
    ((system p).run (fresh nodeId counter) as).Post
      (fun db => db.localClock = ((RegisterMap.empty nodeId).performAll as).localClock ∧
        ∀ key, db.getCrdt key = .ok (((RegisterMap.empty nodeId).performAll as).read key) ∧
          db.get key = .ok ((((RegisterMap.empty nodeId).performAll as).read key).map (·.value)))
      WriteFailed := by
  apply Except.Post.imp (refines_run p (refines_fresh hnode counter) henters)
  intro db _ hrefines
  refine ⟨hrefines.localClock, fun key => ⟨hrefines.reads key, ?_⟩⟩
  unfold ZenithDB.get
  rw [hrefines.reads key]
  rfl

/-- A removal that is frozen and flushed, and a delivery of the value it removed. -/
theorem refines_register_map_removal :
    ((system .stable).run (fresh [65] 0) [.put 0 [107] [118], .put 200000 [107] [],
        .work fun _ => 5, .putCrdt 0 [107] ⟨[118], VectorClock.empty.increment [65]⟩]).Post
      (fun db => db.localClock = ((RegisterMap.empty [65]).performAll [.put 0 [107] [118],
          .put 200000 [107] [], .work fun _ => 5,
          .putCrdt 0 [107] ⟨[118], VectorClock.empty.increment [65]⟩]).localClock ∧
        ∀ key, db.getCrdt key = .ok (((RegisterMap.empty [65]).performAll [.put 0 [107] [118],
            .put 200000 [107] [], .work fun _ => 5,
            .putCrdt 0 [107] ⟨[118], VectorClock.empty.increment [65]⟩]).read key) ∧
          db.get key = .ok ((((RegisterMap.empty [65]).performAll [.put 0 [107] [118],
            .put 200000 [107] [], .work fun _ => 5,
            .putCrdt 0 [107] ⟨[118], VectorClock.empty.increment [65]⟩]).read key).map (·.value)))
      WriteFailed := by
  have hnode : ([65] : NodeID) ∈ [[65]] := by decide
  exact refines_register_map .stable hnode 0 (by decide)

-- ---------------------------------------------------------------------------
-- Sessions
-- ---------------------------------------------------------------------------

/-- The records fit, and the counter of a local write does not wrap around. The second is on
the state before the step, since the counter is in the local clock. -/
def Admitted (ids : List NodeID) (db : ZenithDB) (a : Action) : Prop :=
  Enters ids a ∧ match a with
    | .put _ _ _ => (db.localClock.get db.nodeId).toNat + 1 < 2 ^ 64
    | _ => True

instance (ids : List NodeID) (db : ZenithDB) : ∀ a, Decidable (Admitted ids db a)
  | .put _ key value => inferInstanceAs (Decidable (Enters ids (.put _ key value) ∧ _ < _))
  | .putCrdt u key incoming => inferInstanceAs (Decidable (Enters ids (.putCrdt u key incoming) ∧ True))
  | .work time => inferInstanceAs (Decidable (Enters ids (.work time) ∧ True))
  | .otherNames n => inferInstanceAs (Decidable (Enters ids (.otherNames n) ∧ True))

theorem Refines.counts (h : Refines ids db m) {a : Action} (ha : Admitted ids db a) : m.Counts a := by
  have hcount := ha.2
  cases a with
  | put usage key value =>
    dsimp only at hcount
    rwa [h.nodeId, h.localClock] at hcount
  | putCrdt usage key incoming => trivial
  | work time => trivial
  | otherNames n => trivial

/-- A state of a run of the map that bounds its registers. -/
def Bounds (ids : List NodeID) (db : ZenithDB) : Prop := ∃ m, Refines ids db m ∧ m.Bounded

theorem bounds_step {db' : ZenithDB} {a : Action} (h : Refines ids db m) (hbounded : m.Bounded)
    (ha : Admitted ids db a) (hstep : ZenithDB.step p db a = .ok db') :
    Refines ids db' (m.perform a) ∧ (m.perform a).Bounded :=
  ⟨(h.step p ha.1).result hstep, RegisterMap.bounded_perform hbounded (h.counts ha)⟩

/-- **Monotonic reads.** A register that a key shows stays or gives way to registers with
later clocks, through writes, deliveries in any order, rotations, flushes and compactions,
until the key shows nothing for once. A write that is read back is such a register.

Hypotheses:
* `hnode` — the node's own id is one of `ids`, over which all clocks are;
* `hadmitted` — each step of both parts writes what fits its length fields, and does not
  wrap the counter;
* `hrun`, `hrun'` — both parts of the run are in one process, which started in an empty
  directory;
* `hget` — what the key shows between them.

Behind a wrapped counter, or after a restart, a put shows a clock that is not later than the
one before it. -/
theorem monotonic_reads {nodeId : NodeID} (hnode : nodeId ∈ ids) {counter : Nat}
    {as bs : List Action} {db' : ZenithDB}
    (hadmitted : (system p).Along (fun _ => Admitted ids) [] (fresh nodeId counter) (as ++ bs))
    (hrun : (system p).run (fresh nodeId counter) as = .ok db)
    {key : Bytes} {r : LWWRegister} (hget : db.getCrdt key = .ok (some r))
    (hrun' : (system p).run db bs = .ok db') :
    (∃ r', db'.getCrdt key = .ok (some r') ∧ r.clock ≤ r'.clock) ∨
      ∃ before after t, bs = before ++ after ∧ (system p).run db before = .ok t ∧
        t.getCrdt key = .ok none := by
  have hbounds : Bounds ids db := by
    refine System.run_invariant (S := system p) (P := fun _ => Bounds ids) ?_
      ⟨_, refines_fresh hnode counter, RegisterMap.bounded_empty nodeId⟩ hadmitted.append_left hrun
    rintro tr d a d' ⟨m, hm, hbounded⟩ ha hstep
    exact ⟨_, bounds_step hm hbounded ha hstep⟩
  obtain ⟨m, hm, hbounded⟩ := hbounds
  -- by induction on the second part of the run
  have hend := System.run_prefix_invariant (S := system p) (s := db)
    (P := fun done t => ∃ m, Refines ids t m ∧ m.Bounded ∧
      ((∃ r', m.read key = some r' ∧ r.clock ≤ r'.clock) ∨
        ∃ before after u, done = before ++ after ∧ (system p).run db before = .ok u ∧
          u.getCrdt key = .ok none))
    ?_ ?_ (hadmitted.append_right hrun) hrun'
  · obtain ⟨m', hm', -, hshown | hgone⟩ := hend
    · obtain ⟨r', hr', hle⟩ := hshown
      exact .inl ⟨r', by rw [hm'.reads key, hr'], hle⟩
    · exact .inr hgone
  · refine ⟨m, hm, hbounded, .inl ⟨r, ?_, le_refl _⟩⟩
    rw [hm.reads key] at hget
    exact Except.ok.inj hget
  · rintro done t a t' hdone ⟨m, hm, hbounded, hcase⟩ ha hstep
    obtain ⟨hm', hbounded'⟩ := bounds_step hm hbounded ha hstep
    refine ⟨_, hm', hbounded', ?_⟩
    -- as long as the key has shown registers, the step is looked at; once it has shown
    -- nothing, that moment is kept
    rcases hcase with ⟨r', hr', hle⟩ | ⟨before, after, u, rfl, hu, hnone⟩
    · cases (RegisterMap.perform_moves hbounded (hm.counts ha) key).1 with
      | stays hsame => exact .inl ⟨r', hsame.trans hr', hle⟩
      | goes hnone =>
        refine .inr ⟨done ++ [a], [], t', (List.append_nil _).symm, ?_, ?_⟩
        · rw [System.run_append hdone]
          exact System.run_cons_ok hstep []
        · rw [hm'.reads key, hnone]
      | later reg hreg _ hlater => exact .inl ⟨reg, hreg, hle.trans (hlater r' hr')⟩
    · exact .inr ⟨before, after ++ [a], u, List.append_assoc .., hu, hnone⟩

/-- A value is read, and a concurrent one comes from a peer. -/
theorem monotonic_reads_delivery :
    ∃ db db', (system .stable).run (fresh [65] 0) [.put 0 [107] [118]] = .ok db ∧
      (system .stable).run db [.putCrdt 200000 [107] ⟨[119], VectorClock.empty.increment [66]⟩,
        .work fun _ => 5] = .ok db' ∧
      ((∃ r', db'.getCrdt [107] = .ok (some r') ∧
          (VectorClock.empty.increment [65]) ≤ r'.clock) ∨
        ∃ before after t, [Action.putCrdt 200000 [107] ⟨[119], VectorClock.empty.increment [66]⟩,
            .work fun _ => 5] = before ++ after ∧
          (system .stable).run db before = .ok t ∧ t.getCrdt [107] = .ok none) := by
  obtain ⟨db, hrun, hget, db', hrun', -⟩ : ∃ db, (system .stable).run (fresh [65] 0)
      [.put 0 [107] [118]] = .ok db ∧
        db.getCrdt [107] = .ok (some ⟨[118], VectorClock.empty.increment [65]⟩) ∧
        ∃ db', (system .stable).run db
          [.putCrdt 200000 [107] ⟨[119], VectorClock.empty.increment [66]⟩,
            .work fun _ => 5] = .ok db' ∧ True := by
    decide +kernel
  have hnode : ([65] : NodeID) ∈ [[65], [66]] := by decide
  exact ⟨db, db', hrun, hrun', monotonic_reads hnode (by decide +kernel) hrun hget hrun'⟩

end ZenithDB

end Zenith
