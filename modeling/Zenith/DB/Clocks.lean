import Zenith.DB.ClockContinuity
import Zenith.DB.Receive

/-!
# Zenith — the clocks a database holds

Every register that is stored is merged from registers that came before it, so a property of
clocks that merging keeps (`Joins`) holds of all of them once it holds of the clocks that
enter the database. The local clock is such a bound: it is merged with every clock that
enters, and a local write goes above it.

Unlike the order of versions this needs nothing of the schedule: it is kept by every run in
which the records fit their length fields.

The invariant `Clocked` is an instance of `Stores`, with bytes that carry a fitting register
for its predicate. So the steps of the worker and the layers of the database need no
treatment of their own here; what has to be shown is that the predicate is `Mergeable`, and
what a write brings in.

Main results: `Clocked.put`, `Clocked.putCrdt`, `Clocked.work` and `Clocked.storedIn`.
-/

namespace Zenith

open Bytes VectorClock

namespace VectorClock

/-- A property of clocks that merging keeps. -/
def Joins (P : VectorClock → Prop) : Prop := ∀ a b, P a → P b → P (a.merge b)

/-- Being below a clock is such a property, since the merge is the least clock above both. -/
theorem joins_le (bound : VectorClock) : Joins (· ≤ bound) := fun _ _ ha hb => merge_le ha hb

theorem Joins.and {P P' : VectorClock → Prop} (h : Joins P) (h' : Joins P') :
    Joins fun c => P c ∧ P' c := fun a b ha hb => ⟨h a b ha.1 hb.1, h' a b ha.2 hb.2⟩

end VectorClock

theorem LWWRegister.clock_merge_of_joins {P : VectorClock → Prop} (h : Joins P) {r o : LWWRegister}
    (hr : P r.clock) (ho : P o.clock) : P (r.merge o).clock := by
  have hboth := h _ _ hr ho
  unfold LWWRegister.merge
  split <;> assumption

namespace ZenithDB

variable {ids : List NodeID} {P : VectorClock → Prop} {db : ZenithDB}

/-- The bytes are those of a register that fits and whose clock has the property. -/
def Carries (ids : List NodeID) (P : VectorClock → Prop) (key raw : Bytes) : Prop :=
  ∃ r : LWWRegister, raw = r.serialize ∧ r.clock.Within ids ∧ Fits ids key r.value ∧ P r.clock

theorem Carries.mono {P' : VectorClock → Prop} (hle : ∀ c, P c → P' c) {key raw : Bytes}
    (h : Carries ids P key raw) : Carries ids P' key raw := by
  obtain ⟨r, hraw, hids, hfits, hclock⟩ := h
  exact ⟨r, hraw, hids, hfits, hle _ hclock⟩

/-- The bytes read back as the register they were made of. -/
theorem Carries.read {key raw : Bytes} (h : Carries ids P key raw) :
    ∃ r, LWWRegister.deserialize raw = .ok r ∧ raw = r.serialize ∧ r.clock.Within ids ∧
      Fits ids key r.value ∧ P r.clock := by
  obtain ⟨r, rfl, hids, hfits, hclock⟩ := h
  exact ⟨r, read_of_fits hids hfits, rfl, hids, hfits, hclock⟩

theorem Carries.clock {key raw : Bytes} (h : Carries ids P key raw) {reg : LWWRegister}
    (hreg : LWWRegister.deserialize raw = .ok reg) : P reg.clock := by
  obtain ⟨r, hr, -, -, -, hclock⟩ := h.read
  obtain rfl := Except.ok.inj (hr.symm.trans hreg)
  exact hclock

/-- Merging carries the property along, and a merge fits when both sides do. -/
theorem mergeable_carries (hP : Joins P) : Mergeable (Carries ids P) where
  fits key raw h := by
    obtain ⟨r, rfl, hids, hfits, -⟩ := h
    exact Held.entryFits ⟨r, rfl, hids, hfits⟩
  merge key a b ha hb := by
    obtain ⟨r, hr, -, hrids, hrfits, hrclock⟩ := ha.read
    obtain ⟨o, ho, -, hoids, hofits, hoclock⟩ := hb.read
    obtain ⟨hids, hfits⟩ := fits_merge hrids hoids hrfits hofits
    exact ⟨r, o, hr, ho, _, rfl, hids, hfits, LWWRegister.clock_merge_of_joins hP hrclock hoclock⟩

-- ---------------------------------------------------------------------------
-- The invariant
-- ---------------------------------------------------------------------------

/-- All stored clocks are below the local clock and have the property. -/
structure Clocked (ids : List NodeID) (P : VectorClock → Prop) (db : ZenithDB) : Prop where
  node : db.nodeId ∈ ids
  clock : db.localClock.Within ids
  known : P db.localClock
  stores : Stores (Carries ids fun c => c ≤ db.localClock ∧ P c) db

theorem clocked_fresh {nodeId : NodeID} (hnode : nodeId ∈ ids) (hempty : P .empty) (counter : Nat) :
    Clocked ids P (fresh nodeId counter) :=
  ⟨hnode, within_empty, hempty, stores_fresh nodeId counter⟩

theorem Clocked.mono {P' : VectorClock → Prop} (h : Clocked ids P db)
    (hle : ∀ c, c ≤ db.localClock → P c → P' c) : Clocked ids P' db :=
  ⟨h.node, h.clock, hle _ (le_refl _) h.known,
    h.stores.mono fun _ _ hcarries => hcarries.mono fun c hc => ⟨hc.1, hle c hc.1 hc.2⟩⟩

theorem Clocked.mergeable (_ : Clocked ids P db) (hP : Joins P) :
    Mergeable (Carries ids fun c => c ≤ db.localClock ∧ P c) :=
  mergeable_carries ((joins_le _).and hP)

/-- A register that a read returns. -/
theorem Clocked.read (h : Clocked ids P db) (hP : Joins P) (key : Bytes) :
    ∃ found, db.getCrdt key = .ok found ∧ ∀ r ∈ found,
      Live ids key r ∧ r.clock ≤ db.localClock ∧ P r.clock := by
  obtain ⟨found, hget, hfound⟩ := h.stores.getCrdt (h.mergeable hP) key
  refine ⟨found, hget, fun r hr => ?_⟩
  obtain ⟨hlive, raw, hraw, hread⟩ := hfound r hr
  obtain ⟨r', hr', -, hids, hfits, hclock⟩ := hraw.read
  obtain rfl := Except.ok.inj (hr'.symm.trans hread)
  exact ⟨⟨hlive, hids, hfits⟩, hclock⟩

/-- Rows that a scan returns. -/
theorem Clocked.scan (h : Clocked ids P db) (hP : Joins P) (p : Platform) (start stop : Bytes) :
    ∃ out, db.scanCrdt p start stop = .ok out ∧ ∀ kv ∈ out,
      Live ids kv.1 kv.2 ∧ kv.2.clock ≤ db.localClock ∧ P kv.2.clock := by
  obtain ⟨out, finalRaw, hscan, -, hmem, hrows, -⟩ :=
    h.stores.scanCrdt (h.mergeable hP) p start stop
  refine ⟨out, hscan, ?_⟩
  rintro ⟨key, reg⟩ hout
  obtain ⟨hlive, raw, hraw, hread⟩ := (hmem key reg).mp hout
  obtain ⟨r, hr, -, hids, hfits, hclock⟩ := (hrows _ hraw).read
  obtain rfl := Except.ok.inj (hr.symm.trans hread)
  exact ⟨⟨hlive, hids, hfits⟩, hclock⟩

/-- A write under a clock that is above the local one and has the property. -/
theorem Clocked.storeRecord (h : Clocked ids P db) {clock : VectorClock} (hids : clock.Within ids)
    (hle : db.localClock ≤ clock) (hclock : P clock) (usage : Nat) {key raw : Bytes}
    (hraw : Carries ids (fun c => c ≤ clock ∧ P c) key raw) :
    Clocked ids P ({ db with localClock := clock }.storeRecord usage key raw) := by
  have hstores : Stores (Carries ids fun c => c ≤ clock ∧ P c) { db with localClock := clock } := by
    have hmono : Stores (Carries ids fun c => c ≤ clock ∧ P c) db :=
      h.stores.mono fun _ _ hcarries => hcarries.mono fun c hc => ⟨hc.1.trans hle, hc.2⟩
    exact ⟨hmono.memtables, hmono.layout, hmono.worker, hmono.files⟩
  have hstored := hstores.storeRecord usage hraw
  have hsame : ({ db with localClock := clock }.storeRecord usage key raw).localClock = clock ∧
      ({ db with localClock := clock }.storeRecord usage key raw).nodeId = db.nodeId := by
    unfold ZenithDB.storeRecord
    split <;> exact ⟨rfl, rfl⟩
  refine ⟨?_, ?_, ?_, ?_⟩
  · rw [hsame.2]
    exact h.node
  · rw [hsame.1]
    exact hids
  · rw [hsame.1]
    exact hclock
  · rw [hsame.1]
    exact hstored

/-- **A local write**, when its clock has the property. -/
theorem Clocked.put (h : Clocked ids P db) (usage : Nat) {key value : Bytes}
    (hfits : Fits ids key value) (hcount : (db.localClock.get db.nodeId).toNat + 1 < 2 ^ 64)
    (hclock : P (db.localClock.increment db.nodeId)) : Clocked ids P (db.put usage key value) := by
  have hle := (VectorClock.lt_increment hcount).le
  have hids := h.clock.increment h.node
  exact h.storeRecord hids hle hclock usage ⟨_, rfl, hids, hfits, le_refl _, hclock⟩

/-- **A write from a peer.** The local clock becomes the merge with the register's, so it is
above the old registers as well as the new one. -/
theorem Clocked.putCrdt (h : Clocked ids P db) (hP : Joins P) (usage : Nat) {key : Bytes}
    {incoming : LWWRegister} (hids : incoming.clock.Within ids) (hfits : Fits ids key incoming.value)
    (hclock : P incoming.clock) :
    ∃ db', db.putCrdt usage key incoming = .ok db' ∧ Clocked ids P db' ∧
      db'.localClock = db.localClock.merge incoming.clock ∧ db'.nodeId = db.nodeId := by
  obtain ⟨existing, hget, hexisting⟩ := h.read hP key
  have hle := VectorClock.le_merge_left db.localClock incoming.clock
  have hincoming := VectorClock.le_merge_right db.localClock incoming.clock
  have hstored : Carries ids (fun c => c ≤ db.localClock.merge incoming.clock ∧ P c) key
      (resolve incoming existing).serialize := by
    refine ⟨_, rfl, ?_⟩
    cases existing with
    | none => exact ⟨hids, hfits, hincoming, hclock⟩
    | some v =>
      obtain ⟨hlive, hvle, hvclock⟩ := hexisting v rfl
      obtain ⟨hmids, hmfits⟩ := fits_merge hids hlive.clock hfits hlive.fits
      exact ⟨hmids, hmfits, LWWRegister.clock_merge_le hincoming (hvle.trans hle),
        LWWRegister.clock_merge_of_joins hP hclock hvclock⟩
  refine ⟨_, ?_, h.storeRecord (h.clock.merge hids) hle (hP _ _ h.known hclock) usage hstored, ?_⟩
  · unfold ZenithDB.putCrdt
    rw [hget]
    rfl
  · unfold ZenithDB.storeRecord
    split <;> exact ⟨rfl, rfl⟩

/-- The worker changes neither clock, and what it merges has the property already. -/
theorem Clocked.work (h : Clocked ids P db) (hP : Joins P) (p : Platform) (time : Nat → Nat) :
    (db.work p time).Post (fun db' => Clocked ids P db' ∧ db'.localClock = db.localClock ∧
      db'.nodeId = db.nodeId) WriteFailed := by
  apply (h.stores.work (h.mergeable hP) p time).imp
  intro db' hwork hstores
  have hsame := work_sameMem hwork
  refine ⟨⟨?_, ?_, ?_, ?_⟩, hsame.localClock, hsame.nodeId⟩
  · rw [hsame.nodeId]
    exact h.node
  · rw [hsame.localClock]
    exact h.clock
  · rw [hsame.localClock]
    exact h.known
  · rw [hsame.localClock]
    exact hstores

-- ---------------------------------------------------------------------------
-- Stored registers
-- ---------------------------------------------------------------------------

/-- A register that a memtable, a table or a table file holds for the key. -/
def StoredIn (db : ZenithDB) (key : Bytes) (reg : LWWRegister) : Prop :=
  ∃ raw, LWWRegister.deserialize raw = .ok reg ∧
    ((∃ mt ∈ db.memtables, (key, raw) ∈ mt.sortedEntries) ∨
      (∃ level ∈ db.layout, ∃ fe ∈ level, fe.sst.table.get key = .ok (some raw) ∨
        ∃ start stop rows, fe.sst.table.scan start stop = .ok rows ∧ (key, raw) ∈ rows) ∨
      ∃ e ∈ db.disk.files.toList, TableRow e.2 key raw)

/-- What is stored anywhere is below the local clock and has the property. -/
theorem Clocked.storedIn (h : Clocked ids P db) (hP : Joins P) {key : Bytes} {reg : LWWRegister}
    (hreg : StoredIn db key reg) : reg.clock ≤ db.localClock ∧ P reg.clock := by
  obtain ⟨raw, hread, hwhere⟩ := hreg
  have hcarries : Carries ids (fun c => c ≤ db.localClock ∧ P c) key raw := by
    rcases hwhere with ⟨mt, hmt, hentry⟩ | ⟨level, hlevel, fe, hfe, hrow⟩ | ⟨e, he, hrow⟩
    · exact h.stores.memtables mt hmt _ hentry
    · exact (h.stores.layout level hlevel fe hfe).2.row hrow
    · exact fileHolds_tableRow (h.mergeable hP) (h.stores.files e he) hrow
  exact hcarries.clock hread

end ZenithDB

end Zenith
