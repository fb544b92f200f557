import Zenith.Crdt.SoloClock
import Zenith.DB.Preserve
import Zenith.DB.ScanMerge

/-!
# Zenith — a database that only its own node writes to

The specification is a list of writes: a key shows the last value written to it, and nothing
if there is none or it is empty (`visible`). This is all that a user of one node needs to
know of the store.

The database spreads versions of a key over memtables and tables in several levels, but the
versions come from one node, so their clocks form a chain (`merge_solo`): the memtables hold
the last version of every key, and merging any versions in any order gives the last of them.
A memtable stays in the list when it is flushed, and therefore a point read never comes to a
table with a key that was written. The rows of tables do enter scans, where they lose the
merge.

`Solo` is the invariant that connects both. It says that the local clock counts the writes,
that a lookup gives the last record of a key, and that everything in every layer is the
record of one of the writes. The last clause is a mergeable predicate, so the worker keeps
it by the results for those.

`Sized` bounds the number of writes, so that the counter does not wrap, and the size of
each, so that it fits a block. It asks nothing of the bytes: the log is written but not read
here, and a restart is another matter.

Main result: `single_node_correct` — after every run, point reads and range reads show
exactly what the list of writes says.
-/

namespace Zenith

open Bytes VectorClock

namespace ZenithDB

-- ---------------------------------------------------------------------------
-- The specification
-- ---------------------------------------------------------------------------

/-- The pair that a local write is asked to store. -/
def Action.written : Action → List Entry
  | .put _ key value => [(key, value)]
  | .putCrdt _ _ _ => []
  | .work _ => []
  | .otherNames _ => []

/-- Every action but a write from a peer. -/
def Action.Local : Action → Prop
  | .put _ _ _ => True
  | .putCrdt _ _ _ => False
  | .work _ => True
  | .otherNames _ => True

/-- The writes of a run. -/
def writes (as : List Action) : List Entry := as.flatMap Action.written

/-- What a reader sees of a key: its last value, unless that is empty. -/
def visible (w : List Entry) (key : Bytes) : Option Bytes :=
  (History.last key w).filter fun v => decide (v ≠ [])

/-- Fewer than `2 ^ 64` writes, each of which fits a block of its own together
with the 20 bytes and the node id that its clock takes. -/
def Sized (nodeId : NodeID) (w : List Entry) : Prop :=
  w.length < 2 ^ 64 ∧ ∀ kv ∈ w, 44 + nodeId.length + kv.1.length + kv.2.length < 2 ^ 32

-- ---------------------------------------------------------------------------
-- The records of the writes
-- ---------------------------------------------------------------------------

/-- The record of the `i`-th write. -/
def recordOf (nodeId : NodeID) (i : Nat) (kv : Entry) : Entry :=
  (kv.1, LWWRegister.serialize ⟨kv.2, soloClock nodeId (i + 1)⟩)

/-- The records of all writes, the clock of each being its place in the list. -/
def recordsOf (nodeId : NodeID) (w : List Entry) : List Entry := w.mapIdx (recordOf nodeId)

/-- The record is that of one of the writes. -/
def Recorded (nodeId : NodeID) (w : List Entry) (key raw : Bytes) : Prop :=
  (key, raw) ∈ recordsOf nodeId w

variable {nodeId : NodeID} {w : List Entry}

/-- A further write adds the next record. -/
theorem recordsOf_append (w : List Entry) (kv : Entry) :
    recordsOf nodeId (w ++ [kv]) = recordsOf nodeId w ++ [recordOf nodeId w.length kv] := by
  unfold recordsOf
  rw [List.mapIdx_append]
  simp

/-- A record is that of a write at some place. -/
theorem recorded_iff {key raw : Bytes} :
    Recorded nodeId w key raw ↔ ∃ i v, w[i]? = some (key, v) ∧
      raw = LWWRegister.serialize ⟨v, soloClock nodeId (i + 1)⟩ := by
  unfold Recorded recordsOf
  rw [List.mem_iff_getElem?]
  constructor
  · rintro ⟨i, hi⟩
    rw [List.getElem?_mapIdx] at hi
    obtain ⟨⟨k, v⟩, hkv, heq⟩ := Option.map_eq_some_iff.mp hi
    obtain ⟨rfl, rfl⟩ := Prod.mk.inj heq
    exact ⟨i, v, hkv, rfl⟩
  · rintro ⟨i, v, hkv, rfl⟩
    exact ⟨i, by rw [List.getElem?_mapIdx, hkv]; rfl⟩

/-- Records stay when more is written. -/
theorem Recorded.append {key raw : Bytes} (h : Recorded nodeId w key raw) (new : List Entry) :
    Recorded nodeId (w ++ new) key raw := by
  obtain ⟨i, v, hkv, hraw⟩ := recorded_iff.mp h
  have hlt : i < w.length := (List.getElem?_eq_some_iff.mp hkv).1
  exact recorded_iff.mpr ⟨i, v, by rw [List.getElem?_append_left hlt, hkv], hraw⟩

/-- The last record of a key is that of its last write. -/
theorem last_recordsOf (w : List Entry) (key : Bytes) :
    (History.last key w = none ∧ History.last key (recordsOf nodeId w) = none) ∨
      ∃ i v, History.last key w = some v ∧ w[i]? = some (key, v) ∧
        History.last key (recordsOf nodeId w) =
          some (LWWRegister.serialize ⟨v, soloClock nodeId (i + 1)⟩) ∧
        ∀ j u, w[j]? = some (key, u) → j ≤ i := by
  induction w using List.reverseRecOn with
  | nil => exact Or.inl ⟨rfl, rfl⟩
  | append_singleton w kv ih =>
    rw [recordsOf_append, History.last_append_singleton, History.last_append_singleton]
    -- the last write of the key is this one, with the highest index
    by_cases hkey : key = kv.1
    · right
      refine ⟨w.length, kv.2, if_pos hkey, ?_, if_pos hkey, ?_⟩
      · rw [List.getElem?_concat_length, hkey]
      · intro j u hj
        have := (List.getElem?_eq_some_iff.mp hj).1
        rw [List.length_append, List.length_singleton] at this
        omega
    · -- the new write is not one of the key, so no index moves
      have hrecord : ¬ key = (recordOf nodeId w.length kv).1 := hkey
      rw [if_neg hkey, if_neg hrecord]
      refine ih.imp_right ?_
      rintro ⟨i, v, hlast, hi, hrec, hmax⟩
      have hlt : i < w.length := (List.getElem?_eq_some_iff.mp hi).1
      refine ⟨i, v, hlast, by rw [List.getElem?_append_left hlt, hi], hrec, ?_⟩
      intro j u hj
      rcases Nat.lt_or_ge j w.length with hj' | hj'
      · rw [List.getElem?_append_left hj'] at hj
        exact hmax j u hj
      · rw [List.getElem?_append_right hj', List.getElem?_singleton] at hj
        split at hj
        · exact absurd (congrArg Prod.fst (Option.some.inj hj)).symm hkey
        · exact absurd hj (by simp)

/-- A record reads back as the register of its write. -/
theorem deserialize_record (hw : Sized nodeId w) {i : Nat} {key v : Bytes}
    (hi : w[i]? = some (key, v)) :
    LWWRegister.deserialize (LWWRegister.serialize ⟨v, soloClock nodeId (i + 1)⟩) =
      .ok ⟨v, soloClock nodeId (i + 1)⟩ := by
  apply LWWRegister.deserialize_serialize
  have hsize := hw.2 (key, v) (List.mem_of_getElem? hi)
  exact encodable_soloClock (by omega) _

/-- Records are closed under merging: the later one survives. -/
theorem mergeable_recorded (hw : Sized nodeId w) : Mergeable (Recorded nodeId w) where
  fits key raw h := by
    obtain ⟨i, v, hi, rfl⟩ := recorded_iff.mp h
    have hsize : 44 + nodeId.length + key.length + v.length < 2 ^ 32 :=
      hw.2 (key, v) (List.mem_of_getElem? hi)
    show 24 + key.length + (LWWRegister.serialize ⟨v, soloClock nodeId (i + 1)⟩).length < 2 ^ 32
    have hlen := LWWRegister.length_serialize ⟨v, soloClock nodeId (i + 1)⟩
    simp only [length_serialize_soloClock] at hlen
    omega
  merge key a b ha hb := by
    obtain ⟨i, v, hi, rfl⟩ := recorded_iff.mp ha
    obtain ⟨j, u, hj, rfl⟩ := recorded_iff.mp hb
    refine ⟨_, _, deserialize_record hw hi, deserialize_record hw hj, ?_⟩
    have hilt := (List.getElem?_eq_some_iff.mp hi).1
    have hjlt := (List.getElem?_eq_some_iff.mp hj).1
    have hcount := hw.1
    rw [LWWRegister.merge_solo (by omega) (by omega)]
    split
    · exact hb
    · exact ha

-- ---------------------------------------------------------------------------
-- The invariant
-- ---------------------------------------------------------------------------

/-- How a database stands to the writes it has performed. -/
structure Solo (nodeId : NodeID) (w : List Entry) (db : ZenithDB) : Prop where
  node : db.nodeId = nodeId
  localClock : db.localClock = soloClock nodeId w.length
  lookupMem : ∀ key, db.lookupMem key = History.last key (recordsOf nodeId w)
  stores : Stores (Recorded nodeId w) db

/-- A fresh database has performed no writes. -/
theorem solo_fresh (nodeId : NodeID) (counter : Nat) : Solo nodeId [] (fresh nodeId counter) :=
  ⟨rfl, rfl, fun _ => rfl, stores_fresh nodeId counter⟩

/-- The register of the next local write. -/
theorem Solo.localRegister {db : ZenithDB} (h : Solo nodeId w db) (value : Bytes) :
    db.localRegister value = ⟨value, soloClock nodeId (w.length + 1)⟩ := by
  unfold ZenithDB.localRegister
  rw [h.node, h.localClock]
  rfl

/-- **One step** of a local action keeps the invariant. -/
theorem Solo.step {db : ZenithDB} (h : Solo nodeId w db) (p : Platform) {a : Action}
    (hlocal : a.Local) (hw : Sized nodeId (w ++ a.written)) :
    (ZenithDB.step p db a).Post (Solo nodeId (w ++ a.written)) WriteFailed := by
  have hQ := mergeable_recorded hw
  have hstores : Stores (Recorded nodeId (w ++ a.written)) db :=
    h.stores.mono fun k raw hraw => hraw.append a.written
  -- only a put changes the list of writes
  cases a with
  | putCrdt usage key incoming => exact absurd hlocal id
  | otherNames n =>
    rw [Action.written, List.append_nil] at hstores ⊢
    exact ⟨h.node, h.localClock, h.lookupMem,
      hstores.memtables, hstores.layout, hstores.worker, hstores.files⟩
  | work time =>
    rw [Action.written, List.append_nil] at hstores hQ ⊢
    -- the worker writes out what is there: memtables, clock and writes stay
    apply (hstores.work hQ p time).imp
    intro db' hstep hstores'
    have hsame := work_sameMem hstep
    refine ⟨hsame.nodeId.trans h.node, hsame.localClock.trans h.localClock, ?_, hstores'⟩
    intro key
    rw [hsame.lookupMem, h.lookupMem]
  | put usage key value =>
    -- the new record is the only one that enters the database
    have hrecord : (key, (db.localRegister value).serialize) =
        recordOf nodeId w.length (key, value) := by
      rw [h.localRegister]
      rfl
    have hnew : Recorded nodeId (w ++ [(key, value)]) key (db.localRegister value).serialize := by
      unfold Recorded
      rw [recordsOf_append, hrecord]
      exact List.mem_append_right _ (List.mem_singleton_self _)
    have hrows : Rows (Recorded nodeId (w ++ [(key, value)])) (stored db (.put usage key value)) := by
      intro e he
      rw [List.mem_singleton.mp he]
      exact hnew
    apply (hstores.step hQ p hrows).imp
    intro db' hstep hstores'
    obtain rfl := Except.ok.inj hstep
    -- it is in the active memtable, in front of all others
    have hmem : ∀ k, (db.put usage key value).lookupMem k =
        History.last k (recordsOf nodeId (w ++ [(key, value)])) := by
      intro k
      unfold ZenithDB.put
      rw [lookupMem_storeRecord _ _ (LWWRegister.serialize_ne_nil _), recordsOf_append,
        ← hrecord, History.last_append_singleton]
      by_cases hk : k = key
      · rw [if_pos hk, if_pos hk]
      · rw [if_neg hk, if_neg hk]
        exact h.lookupMem k
    have hclock : (db.put usage key value).localClock = soloClock nodeId (w.length + 1) := by
      have hreg := h.localRegister value
      unfold ZenithDB.put storeRecord
      split <;> exact congrArg LWWRegister.clock hreg
    have hid : (db.put usage key value).nodeId = db.nodeId := by
      unfold ZenithDB.put storeRecord
      split <;> rfl
    refine ⟨hid.trans h.node, ?_, hmem, hstores'⟩
    rw [hclock, Action.written, List.length_append, List.length_singleton]

-- ---------------------------------------------------------------------------
-- Reads
-- ---------------------------------------------------------------------------

/-- A memtable lookup decides a point read: behind it there is nothing newer, and
nothing at all for a key that was never written. -/
theorem Solo.get {db : ZenithDB} (h : Solo nodeId w db) (hw : Sized nodeId w) (key : Bytes) :
    db.get key = .ok (visible w key) := by
  -- a key that was never written is in no store
  have hread : ∀ crdt : Option LWWRegister, db.getCrdt key = .ok crdt →
      db.get key = .ok (crdt.map (·.value)) := by
    intro crdt hcrdt
    unfold ZenithDB.get
    rw [hcrdt]
    rfl
  unfold visible
  rcases last_recordsOf w key with ⟨hnone, hmem⟩ | ⟨i, v, hlast, hi, hmem, -⟩
  · obtain ⟨r, hr, hraw⟩ := h.stores.lookup key
    have hr' : r = none := by
      cases r with
      | none => rfl
      | some raw =>
        obtain ⟨u, hu⟩ := History.last_isSome (hraw raw rfl)
        rw [hmem] at hu
        exact absurd hu (by simp)
    rw [hread none (by unfold ZenithDB.getCrdt; rw [hr, hr']; rfl), hnone]
    rfl
  · -- flushed memtables stay listed, so the newest record is in one of them
    rw [← h.lookupMem] at hmem
    have hcrdt : db.getCrdt key =
        .ok (if v = [] then none else some ⟨v, soloClock nodeId (i + 1)⟩) := by
      unfold ZenithDB.getCrdt ZenithDB.lookup
      rw [hmem]
      dsimp only
      rw [Except.ok_bind, readRegister, deserialize_record hw hi]
      rfl
    rw [hread _ hcrdt, hlast]
    by_cases hv : v = []
    · rw [if_pos hv, hv]
      rfl
    · rw [if_neg hv]
      simp [Option.filter, hv]

/-- The row that a scan is left with for a key is the record of its last write. -/
theorem Solo.newest {db : ZenithDB} (h : Solo nodeId w db) (hw : Sized nodeId w) {key raw : Bytes}
    (hraw : Recorded nodeId w key raw)
    (hnewest : ∀ mt ∈ db.memtables, ∀ d ∈ mt.sortedEntries, d.1 = key → NotOlder raw d.2) :
    ∃ i v, History.last key w = some v ∧ w[i]? = some (key, v) ∧
      raw = LWWRegister.serialize ⟨v, soloClock nodeId (i + 1)⟩ := by
  rcases last_recordsOf w key with ⟨-, hmem⟩ | ⟨i, v, hlast, hi, hmem, hmax⟩
  · obtain ⟨u, hu⟩ := History.last_isSome hraw
    rw [hmem] at hu
    exact absurd hu (by simp)
  · rw [← h.lookupMem] at hmem
    obtain ⟨-, mt, hmt, hentry⟩ := lookupMem_mem hmem
    obtain ⟨r, s, hr, hs, hle⟩ := hnewest mt hmt _ hentry rfl
    obtain ⟨j, u, hj, rfl⟩ := recorded_iff.mp hraw
    rw [deserialize_record hw hj] at hr
    rw [deserialize_record hw hi] at hs
    obtain rfl := Except.ok.inj hr
    obtain rfl := Except.ok.inj hs
    -- the clocks count the writes, so the row can only be the last one
    have hilt := (List.getElem?_eq_some_iff.mp hi).1
    have hjlt := (List.getElem?_eq_some_iff.mp hj).1
    have hcount := hw.1
    have hij := le_of_soloClock_le (by omega) (by omega) hle
    have hji := hmax j u hj
    obtain rfl : j = i := by omega
    rw [hi] at hj
    obtain rfl := (Prod.mk.inj (Option.some.inj hj)).2
    exact ⟨j, v, hlast, hi, rfl⟩

/-- A scan shows what the specification shows of the keys in range. -/
theorem Solo.scan {db : ZenithDB} (h : Solo nodeId w db) (hw : Sized nodeId w) (p : Platform)
    (start stop : Bytes) :
    ∃ out, db.scan p start stop = .ok out ∧ (out.map Prod.fst).Pairwise (· < ·) ∧
      ∀ key value, (key, value) ∈ out ↔
        start ≤ key ∧ key ≤ stop ∧ visible w key = some value := by
  obtain ⟨out, finalRaw, hscan, hascending, hmem, hrows, hunique, hrange, hcovers⟩ :=
    h.stores.scanCrdt (mergeable_recorded hw) p start stop
  -- every row that is left is the record of the last write of its key
  have hnewest : ∀ key raw, (key, raw) ∈ finalRaw → ∃ i v, History.last key w = some v ∧
      w[i]? = some (key, v) ∧ raw = LWWRegister.serialize ⟨v, soloClock nodeId (i + 1)⟩ := by
    intro key raw hraw
    apply h.newest hw (hrows _ hraw)
    intro mt hmt d hd hkey
    obtain ⟨hstart, hstop⟩ := hrange _ hraw
    obtain ⟨e, he, hekey, hold⟩ := hcovers mt hmt d hd (hkey ▸ hstart) (hkey ▸ hstop)
    have heq : (key, e.2) ∈ finalRaw := by
      rw [show key = e.1 from (hekey.trans hkey).symm]
      exact he
    rw [← SortedMap.lookup_eq_some_of_sorted hunique] at hraw heq
    rw [hraw] at heq
    rw [Option.some.inj heq]
    exact hold
  refine ⟨out.map fun kv => (kv.1, kv.2.value), ?_, ?_, ?_⟩
  · unfold ZenithDB.scan
    rw [hscan]
    rfl
  · rw [List.map_map]
    exact hascending
  · intro key value
    have hvisible : visible w key = some value ↔ History.last key w = some value ∧ value ≠ [] := by
      unfold visible
      rw [Option.filter_eq_some_iff, decide_eq_true_eq]
    rw [hvisible, List.mem_map]
    constructor
    -- what is shown is the value of the last write, and it is live
    · rintro ⟨⟨k, reg⟩, hout, heq⟩
      obtain ⟨rfl, rfl⟩ := Prod.mk.inj heq
      obtain ⟨hlive, raw, hraw, hreg⟩ := (hmem k reg).mp hout
      obtain ⟨i, v, hlast, hi, rfl⟩ := hnewest k raw hraw
      rw [deserialize_record hw hi] at hreg
      obtain rfl := Except.ok.inj hreg
      exact ⟨(hrange _ hraw).1, (hrange _ hraw).2, hlast, hlive⟩
    -- a live last write is in some memtable, so the scan has a row for the key
    · rintro ⟨hstart, hstop, hlast, hlive⟩
      rcases last_recordsOf w key with ⟨hnone, -⟩ | ⟨i, v, -, -, hrecord, -⟩
      · rw [hlast] at hnone
        exact absurd hnone (by simp)
      · rw [← h.lookupMem] at hrecord
        obtain ⟨-, mt, hmt, hentry⟩ := lookupMem_mem hrecord
        obtain ⟨e, he, hekey, -⟩ := hcovers mt hmt _ hentry hstart hstop
        have hraw : (key, e.2) ∈ finalRaw := by
          rw [show key = e.1 from hekey.symm]
          exact he
        obtain ⟨j, u, hlast', hj, hrec⟩ := hnewest key e.2 hraw
        rw [hlast] at hlast'
        obtain rfl := Option.some.inj hlast'
        refine ⟨(key, ⟨value, soloClock nodeId (j + 1)⟩), ?_, rfl⟩
        exact (hmem _ _).mpr ⟨hlive, e.2, hraw, by rw [hrec, deserialize_record hw hj]⟩

-- ---------------------------------------------------------------------------
-- Runs
-- ---------------------------------------------------------------------------

/-- Databases as a step system whose trace lists the writes. -/
def writeSystem (p : Platform) : System ZenithDB Action Entry Fault :=
  ⟨ZenithDB.step p, fun _ a => a.written⟩

/-- The invariant holds after every run of local actions. -/
theorem solo_run (p : Platform) (nodeId : NodeID) (counter : Nat) {as : List Action}
    (hlocal : ∀ a ∈ as, a.Local) (hw : Sized nodeId (writes as)) :
    ((system p).run (fresh nodeId counter) as).Post (Solo nodeId (writes as)) WriteFailed := by
  have halong : (writeSystem p).Along
      (fun w _ a => a.Local ∧ Sized nodeId (w ++ a.written)) [] (fresh nodeId counter) as := by
    apply System.along_of_prefix
    rintro before a after t rfl hrun
    refine ⟨hlocal a (by simp), ?_⟩
    have htrace : (writeSystem p).trace (fresh nodeId counter) before = writes before :=
      System.trace_eq_flatMap (fun _ _ => rfl) hrun
    -- the writes up to this action are a prefix of all writes
    have hsplit : writes (before ++ a :: after) =
        (writes before ++ a.written) ++ writes after := by
      unfold writes
      rw [List.flatMap_append, List.flatMap_cons, List.append_assoc]
    rw [hsplit] at hw
    rw [htrace, List.nil_append]
    refine ⟨?_, fun kv hkv => hw.2 kv (List.mem_append_left _ hkv)⟩
    have := hw.1
    rw [List.length_append] at this
    omega
  have hrun := System.run_outcome (S := writeSystem p) (P := Solo nodeId) (F := WriteFailed)
    (fun w db a h hcond => h.step p hcond.1 hcond.2) (solo_fresh nodeId counter) halong
  apply Except.Post.imp hrun
  intro db hok hsolo
  rwa [List.nil_append, System.trace_eq_flatMap (fun _ _ => rfl) hok] at hsolo

/-- **Single-node correctness.** A run of local writes, rotations, flushes and compactions
from an empty directory ends in a state where point reads and range reads show the last
values written, or stops at a failed write. The order of the worker's steps among the writes
is arbitrary, and so is the way a sort orders equal keys.

Hypotheses:
* `hlocal` — nothing comes from a peer;
* `hw` — there are fewer than `2 ^ 64` writes, each of which fits a block together with its
  clock. -/
theorem single_node_correct (p : Platform) (nodeId : NodeID) (counter : Nat) {as : List Action}
    (hlocal : ∀ a ∈ as, a.Local) (hw : Sized nodeId (writes as)) :
    ((system p).run (fresh nodeId counter) as).Post
      (fun db => (∀ key, db.get key = .ok (visible (writes as) key)) ∧
        ∀ start stop, ∃ out, db.scan p start stop = .ok out ∧
          (out.map Prod.fst).Pairwise (· < ·) ∧
          ∀ key value, (key, value) ∈ out ↔
            start ≤ key ∧ key ≤ stop ∧ visible (writes as) key = some value)
      WriteFailed := by
  apply (solo_run p nodeId counter hlocal hw).imp
  intro db _ hsolo
  exact ⟨hsolo.get hw, hsolo.scan hw p⟩

/-- A run with an overwrite, a rotation, a delete and a flush. -/
theorem single_node_correct_five_steps :
    ((system .stable).run (fresh [65] 0) [.put 0 [107] [118], .put 200000 [107] [119],
        .put 0 [108] [120], .work fun _ => 0, .put 0 [108] []]).Post
      (fun db => (∀ key, db.get key = .ok (visible [([107], [118]), ([107], [119]),
          ([108], [120]), ([108], [])] key)) ∧
        ∀ start stop, ∃ out, db.scan .stable start stop = .ok out ∧
          (out.map Prod.fst).Pairwise (· < ·) ∧
          ∀ key value, (key, value) ∈ out ↔ start ≤ key ∧ key ≤ stop ∧
            visible [([107], [118]), ([107], [119]), ([108], [120]), ([108], [])] key =
              some value)
      WriteFailed :=
  single_node_correct .stable [65] 0 (by simp [Action.Local]) (by
    unfold Sized
    decide)

end ZenithDB

end Zenith
