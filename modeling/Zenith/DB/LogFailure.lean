import Zenith.DB.LocalCounter
import Zenith.DB.StaleWrite

/-!
# Zenith — writes whose log call throws

Both `put` overloads advance the local clock, put the record into the memtable and only then
call the log. `append` may throw with a part of its line written, `sync` with all of it;
nothing in `db.cpp` catches either exception or takes back what was done before it. What is
skipped is the end of the function, which freezes a full memtable.

The outcome of the log is a parameter (`LogOutcome`), with the number of bytes that were
written before the exception. So the two overloads are one definition up to where they throw
(`storeLogged`), and what a reader sees is compared with the overload that returns. The
skipped rotation cannot be seen: freezing puts an empty memtable in front of the full one.

The results are about any database, reachable or not, since none of its invariants is used.

Main result: `failed_put_stays_visible`. To every reader, and in its local clock, a database
whose write threw is the database whose write succeeded.
-/

namespace Zenith

open Bytes

namespace ZenithDB

/-- What the log makes of a record. -/
inductive LogOutcome
  | done
  /-- `append` throws after `n` bytes of the line -/
  | appendThrows (n : Nat)
  | syncThrows
  deriving DecidableEq

/-- A record that is in the memtable when the log throws. -/
def storeUnlogged (db : ZenithDB) (key serialized written : Bytes) : ZenithDB :=
  { db with
    activeMem := db.activeMem.put key serialized
    disk := { db.disk with wal := db.disk.wal ++ written } }

/-- The common end of both `put` overloads, up to where it throws. -/
def storeLogged (db : ZenithDB) (usage : Nat) (key serialized : Bytes) : LogOutcome → ZenithDB
  | .done => db.storeRecord usage key serialized
  | .appendThrows n =>
    db.storeUnlogged key serialized ((Wal.encodeRecord (key, serialized)).take n)
  | .syncThrows => db.storeUnlogged key serialized (Wal.encodeRecord (key, serialized))

/-- The state that `put(key, value)` leaves, whether it returns or throws. -/
def putLogged (db : ZenithDB) (usage : Nat) (key value : Bytes) (o : LogOutcome) : ZenithDB :=
  let reg := db.localRegister value
  { db with localClock := reg.clock }.storeLogged usage key reg.serialize o

/-- The state that `put(key, LWWRegister)` leaves. An exception of `get_crdt` is a fault
here, and nothing has changed then: it comes before the clock is touched. -/
def putCrdtLogged (db : ZenithDB) (usage : Nat) (key : Bytes) (incoming : LWWRegister)
    (o : LogOutcome) : Except Fault ZenithDB := do
  let existing ← db.getCrdt key
  let finalCrdt := resolve incoming existing
  return { db with localClock := db.localClock.merge incoming.clock }.storeLogged usage key
    finalCrdt.serialize o

/-- When the log throws nothing these are the two overloads. -/
theorem putLogged_done (db : ZenithDB) (usage : Nat) (key value : Bytes) (incoming : LWWRegister) :
    db.putLogged usage key value .done = db.put usage key value ∧
      db.putCrdtLogged usage key incoming .done = db.putCrdt usage key incoming :=
  ⟨rfl, rfl⟩

-- ---------------------------------------------------------------------------
-- What readers see
-- ---------------------------------------------------------------------------

/-- Two databases that no reader can tell apart and that hold the same clock. -/
structure ReadsAs (p : Platform) (db db' : ZenithDB) : Prop where
  localClock : db.localClock = db'.localClock
  get : ∀ key, db.get key = db'.get key
  getCrdt : ∀ key, db.getCrdt key = db'.getCrdt key
  scanCrdt : ∀ start stop, db.scanCrdt p start stop = db'.scanCrdt p start stop

/-- Reads depend on the layout, on what the memtables answer and on the rows they
give to a scan. -/
theorem readsAs_of_memtables {p : Platform} {db db' : ZenithDB}
    (hclock : db.localClock = db'.localClock) (hlayout : db.layout = db'.layout)
    (hlookup : ∀ key, db.lookupMem key = db'.lookupMem key)
    (hrows : ∀ start stop, db.memtables.flatMap (fun mt => mt.scan start stop) =
      db'.memtables.flatMap fun mt => mt.scan start stop) : ReadsAs p db db' := by
  have hget : ∀ key, db.getCrdt key = db'.getCrdt key := by
    intro key
    unfold ZenithDB.getCrdt lookup
    rw [hlookup key, hlayout]
  refine ⟨hclock, fun key => ?_, hget, fun start stop => ?_⟩
  · unfold ZenithDB.get
    rw [hget key]
  · unfold ZenithDB.scanCrdt collectRows
    rw [hrows start stop, hlayout]

/-- Freezing the memtable puts an empty one in front of it, which no reader sees. -/
theorem storeUnlogged_readsAs (p : Platform) (db : ZenithDB) (usage : Nat)
    (key serialized written : Bytes) :
    ReadsAs p (db.storeUnlogged key serialized written) (db.storeRecord usage key serialized) := by
  by_cases hfull : usage > 2 * memtableLimit
  · have hnew : ∀ start stop, MemTable.new.scan start stop = [] := by
      intro start stop
      rw [MemTable.scan_eq]
      rfl
    unfold storeRecord storeUnlogged
    rw [if_pos hfull]
    refine readsAs_of_memtables rfl rfl (fun k => ?_) (fun start stop => ?_)
    · unfold lookupMem memtables
      rw [List.map_cons, List.findSome?_cons, List.findSome?_cons, List.findSome?_cons,
        MemTable.probe_eq_none_of_get (MemTable.get_new k)]
    · unfold memtables
      rw [List.map_cons, List.flatMap_cons, List.flatMap_cons, List.flatMap_cons, hnew,
        List.nil_append]
  · unfold storeRecord storeUnlogged
    rw [if_neg hfull]
    exact readsAs_of_memtables rfl rfl (fun _ => rfl) (fun _ _ => rfl)

/-- By cases on the outcome. Only the bytes in the log differ, which no reader looks at. -/
theorem storeLogged_readsAs (p : Platform) (db : ZenithDB) (usage : Nat) (key serialized : Bytes)
    (o : LogOutcome) :
    ReadsAs p (db.storeLogged usage key serialized o) (db.storeRecord usage key serialized) := by
  cases o with
  | done => exact ⟨rfl, fun _ => rfl, fun _ => rfl, fun _ _ => rfl⟩
  | appendThrows n => exact storeUnlogged_readsAs p db usage key serialized _
  | syncThrows => exact storeUnlogged_readsAs p db usage key serialized _

/-- A record that is stored is read under its own key, and no other key reads
differently. The clock may change with it. -/
theorem getCrdt_storeRecord (db : ZenithDB) (clock : VectorClock) (usage : Nat) (key : Bytes)
    (reg : LWWRegister) (k : Bytes) :
    ({ db with localClock := clock }.storeRecord usage key reg.serialize).getCrdt k =
      if k = key then readRegister (some reg.serialize) else db.getCrdt k := by
  have hlookup : ({ db with localClock := clock }.storeRecord usage key reg.serialize).lookupMem k =
      if k = key then some reg.serialize else db.lookupMem k :=
    lookupMem_storeRecord _ usage reg.serialize_ne_nil k
  by_cases hk : k = key
  · rw [if_pos hk] at hlookup ⊢
    exact getCrdt_of_lookupMem hlookup
  · rw [if_neg hk] at hlookup ⊢
    have hlayout : ({ db with localClock := clock }.storeRecord usage key reg.serialize).layout =
        db.layout := by
      unfold storeRecord
      split <;> rfl
    unfold ZenithDB.getCrdt lookup
    rw [hlookup, hlayout]

/-- An increment is never lost, even where it wraps. So a failed write is seen in the clock
as well. -/
theorem increment_ne (c : VectorClock) (node : NodeID) : c.increment node ≠ c := by
  intro h
  have hget : c.get node + 1 = c.get node := by
    rw [← VectorClock.get_increment_self, h]
  have hone : (1 : UInt64) = 0 := by
    rw [← UInt64.add_right_inj (c.get node), hget, UInt64.add_zero]
  exact absurd hone (by decide)

/-- **A failed write stays visible.** Whatever the log throws, the clock is the advanced
one, every read is the read after a write that succeeded, and only the key itself reads
differently from before. Both overloads, any database, any usage and any outcome; of the
second overload it is asked only that its read of the old register returns. -/
theorem failed_put_stays_visible (p : Platform) (db : ZenithDB) (usage : Nat) (key : Bytes)
    (o : LogOutcome) :
    (∀ value, ReadsAs p (db.putLogged usage key value o) (db.put usage key value) ∧
        (db.putLogged usage key value o).localClock = db.localClock.increment db.nodeId ∧
        (db.putLogged usage key value o).localClock ≠ db.localClock ∧
        ∀ k, (db.putLogged usage key value o).getCrdt k =
          if k = key then readRegister (some (db.localRegister value).serialize)
          else db.getCrdt k) ∧
      ∀ incoming existing, db.getCrdt key = .ok existing →
        ∃ thrown stored, db.putCrdtLogged usage key incoming o = .ok thrown ∧
          db.putCrdt usage key incoming = .ok stored ∧ ReadsAs p thrown stored ∧
          thrown.localClock = db.localClock.merge incoming.clock ∧
          ∀ k, thrown.getCrdt k =
            if k = key then readRegister (some (resolve incoming existing).serialize)
            else db.getCrdt k := by
  constructor
  · -- `put`: the clock was raised before the log was written
    intro value
    have hreads : ReadsAs p (db.putLogged usage key value o) (db.put usage key value) :=
      storeLogged_readsAs p _ usage key _ o
    have hclock : (db.putLogged usage key value o).localClock = db.localClock.increment db.nodeId :=
      hreads.localClock.trans (localClock_put db usage key value)
    refine ⟨hreads, hclock, ?_, fun k => ?_⟩
    · rw [hclock]
      exact increment_ne _ _
    · rw [hreads.getCrdt k]
      exact getCrdt_storeRecord db _ usage key _ k
  · -- `put_crdt`: likewise with the clock that came in
    intro incoming existing hget
    have hreads := storeLogged_readsAs p
      { db with localClock := db.localClock.merge incoming.clock } usage key
      (resolve incoming existing).serialize o
    refine ⟨_, _, ?_, ?_, hreads, ?_, fun k => ?_⟩
    · rw [putCrdtLogged, hget]
      rfl
    · rw [putCrdt, hget]
      rfl
    · exact hreads.localClock.trans (localClock_storeRecord ..)
    · rw [hreads.getCrdt k]
      exact getCrdt_storeRecord db _ usage key _ k

/-- A database in which two keys have registers. -/
def twoKeys : ZenithDB := ((fresh [110] 0).put 0 [107] [118]).put 0 [106] [117]

/-- A local write and a concurrent register of a peer for a key that has a register, thrown
in the middle of the line and at the sync. The other key keeps its register. -/
theorem failed_put_stays_visible_live :
    let peer : LWWRegister := ⟨[120], ⟨SortedMap.empty.insert [66] 1⟩⟩
    twoKeys.get [107] = .ok (some [118]) ∧
      (twoKeys.putLogged 0 [107] [119] (.appendThrows 3)).getCrdt [107] =
        readRegister (some (twoKeys.localRegister [119]).serialize) ∧
      (twoKeys.putLogged 0 [107] [119] (.appendThrows 3)).getCrdt [106] = twoKeys.getCrdt [106] ∧
      ∃ thrown stored, twoKeys.putCrdtLogged 0 [107] peer .syncThrows = .ok thrown ∧
        twoKeys.putCrdt 0 [107] peer = .ok stored ∧ ReadsAs .stable thrown stored ∧
        thrown.getCrdt [106] = twoKeys.getCrdt [106] := by
  intro peer
  obtain ⟨hlocal, -⟩ := failed_put_stays_visible .stable twoKeys 0 [107] (.appendThrows 3)
  obtain ⟨-, hpeer⟩ := failed_put_stays_visible .stable twoKeys 0 [107] .syncThrows
  obtain ⟨existing, hexisting⟩ := Except.exists_eq_ok (x := twoKeys.getCrdt [107])
    (by decide +kernel)
  obtain ⟨thrown, stored, hthrown, hstored, hreads, -, hother⟩ := hpeer peer existing hexisting
  have hreadsLocal := (hlocal [119]).2.2.2
  exact ⟨by decide +kernel, hreadsLocal [107], hreadsLocal [106], thrown, stored, hthrown, hstored,
    hreads, hother [106]⟩

/-- A write of which not a byte reached the log is read all the same. -/
theorem failed_put_leaves_trace :
    let db := fresh [110] 0
    let thrown := db.putLogged 0 [107] [119] (.appendThrows 0)
    thrown.disk.wal = db.disk.wal ∧ db.get [107] = .ok none ∧ thrown.get [107] = .ok (some [119]) ∧
      db.scanCrdt .stable [107] [107] = .ok [] ∧
      thrown.scanCrdt .stable [107] [107] = .ok [([107], ⟨[119], ⟨SortedMap.empty.insert [110] 1⟩⟩)] ∧
      thrown.localClock ≠ db.localClock := by
  decide +kernel

end ZenithDB

end Zenith
