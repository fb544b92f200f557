import Zenith.DB.Robust

/-!
# Zenith — outages

A process can be killed in the middle of any step, by a signal or by an exception of the
background thread, and another one then opens what it left. `OutageAction` adds this to the
steps of a database: the step is cut off behind some of its changes to the directory, the
next change behind some of its bytes (`cutOff`). `crashed_iff_cutOff` says that these are
all the states a crash can leave.

What the log then is follows from what was appended to it and where it was cut off. A
`Journal` keeps account: of the calls, and of the records that the process knows. A call
that returned is known. A restart leaves those that survive in the log (`Wal.survivors`),
which may be more than the process knew, because a record can be whole on disk although its
call did not return, and may be fewer, because a fragment swallows the line behind it.

`Recalls` ties a database to its journal: the log is what was appended, and the memtables
show the last known record of each key. It holds only while records are clean, that is, have
no framing byte; `Lawful` asks this of every write. Local writes cease to be clean at the
tenth, when the counter of the node has the byte of a newline in the serialized clock.

Together with `Robust`, which keeps the tables readable, this gives what reads show after
any number of outages.

Main result: `reads_after_outages`.
-/

namespace Zenith

open Bytes VectorClock

-- ---------------------------------------------------------------------------
-- Killed processes
-- ---------------------------------------------------------------------------

/-- What is there when the first `done` changes were made and, if `cut` is a number, that
many bytes of the next one. -/
def cutOff : List DiskOp → Nat → Option Nat → Disk → Disk
  | [], _, _, disk => disk
  | _ :: _, 0, none, disk => disk
  | op :: _, 0, some n, disk => (op.take n).apply disk
  | op :: ops, done + 1, cut, disk => cutOff ops done cut (op.apply disk)

/-- Nothing else can be left by a crash. -/
theorem crashed_iff_cutOff {ops : List DiskOp} {disk disk' : Disk} :
    Crashed ops disk disk' ↔ ∃ done cut, disk' = cutOff ops done cut disk := by
  constructor
  · intro h
    -- a crash after some changes is told by how many they are
    induction h with
    | before ops disk =>
      refine ⟨0, none, ?_⟩
      cases ops <;> rfl
    | within n => exact ⟨0, some n, rfl⟩
    | after _ ih =>
      obtain ⟨done, cut, heq⟩ := ih
      exact ⟨done + 1, cut, heq⟩
  · rintro ⟨done, cut, rfl⟩
    -- the first change is made, cut off or not begun
    induction ops generalizing disk done with
    | nil => exact .before [] disk
    | cons op ops ih =>
      cases done with
      | zero =>
        cases cut with
        | none => exact .before (op :: ops) disk
        | some n => exact .within n
      | succ done => exact .after (ih done)

namespace ZenithDB

/-- A step, or the end of the process in the middle of one and the start of the next process
in the same directory, with a new counter for names. -/
inductive OutageAction
  | act (a : Action)
  | kill (a : Action) (done : Nat) (cut : Option Nat) (counter : Nat)

/-- A killed process changes the directory and leaves nothing else: the next one starts from
the files. -/
def outageStep (p : Platform) (db : ZenithDB) : OutageAction → Except Fault ZenithDB
  | .act a => step p db a
  | .kill a done cut counter =>
    openDB p db.nodeId (cutOff (diskOps db a) done cut db.disk) counter

-- ---------------------------------------------------------------------------
-- What is appended to the log
-- ---------------------------------------------------------------------------

/-- The register that a step stores, with its key. -/
def appended (db : ZenithDB) : Action → List (Bytes × LWWRegister)
  | .put _ key value => [(key, db.localRegister value)]
  | .putCrdt _ key incoming =>
    match db.getCrdt key with
    | .ok existing => [(key, resolve incoming existing)]
    | .error _ => []
  | .work _ => []
  | .otherNames _ => []

/-- A call of `append` that returned. -/
def wholeCall (r : Bytes × LWWRegister) : Wal.AppendCall :=
  ⟨r.1, r.2, none, fun _ h => absurd h (by simp)⟩

/-- A call of `append` that was cut off behind `n` bytes. -/
def cutCall (r : Bytes × LWWRegister) (n : Nat) : Wal.AppendCall :=
  if h : n < (Wal.encodeRecord (r.1, r.2.serialize)).length then
    ⟨r.1, r.2, some n, fun _ hm => Option.some.inj hm ▸ h⟩
  else wholeCall r

/-- What is left of the call of a step that was cut off. -/
def leftOf (done : Nat) (cut : Option Nat) (r : Bytes × LWWRegister) : List Wal.AppendCall :=
  match done, cut with
  | 0, none => []
  | 0, some n => [cutCall r n]
  | _ + 1, _ => [wholeCall r]

/-- What matters for the log: a call of `append`, whole or cut off, and a restart. -/
inductive LogEvent
  | call (c : Wal.AppendCall)
  | restart

/-- The events of a step. The calls of a step that is cut off come before the restart. -/
def logEvents (db : ZenithDB) : OutageAction → List LogEvent
  | .act a => (appended db a).map fun r => .call (wholeCall r)
  | .kill a done cut _ => ((appended db a).flatMap (leftOf done cut)).map .call ++ [.restart]

/-- Databases with outages as a step system; the trace lists what happens to the log. -/
def outageSystem (p : Platform) : System ZenithDB OutageAction LogEvent Fault :=
  ⟨outageStep p, logEvents⟩

end ZenithDB

/-- What was appended to a log, and the records that the process at it knows. -/
structure Journal where
  calls : List Wal.AppendCall
  known : List Entry

namespace Journal

open ZenithDB (LogEvent)

/-- A call that returned is known; a new process knows what survives. -/
def add (j : Journal) : LogEvent → Journal
  | .call c => ⟨j.calls ++ [c], if c.Succeeded then j.known ++ [c.record] else j.known⟩
  | .restart => ⟨j.calls, Wal.survivors false j.calls⟩

/-- The journal of a run. -/
def of (events : List LogEvent) : Journal := events.foldl add ⟨[], []⟩

/-- Events are accounted for one after the other. -/
theorem of_append (events more : List LogEvent) :
    of (events ++ more) = more.foldl add (of events) :=
  List.foldl_append

end Journal

namespace ZenithDB

variable {ids : List NodeID} {R : Bytes → LWWRegister → Prop} {p : Platform} {db db' : ZenithDB}

/-- What a step stores is what it appends, as bytes. -/
theorem stored_eq (db : ZenithDB) (a : Action) :
    stored db a = (appended db a).map fun r => (r.1, r.2.serialize) := by
  cases a with
  | put usage key value => rfl
  | putCrdt usage key incoming =>
    rw [stored, appended]
    cases db.getCrdt key <;> rfl
  | work time => rfl
  | otherNames n => rfl

/-- A call that is cut off is one of the same record. -/
theorem record_leftOf {r : Bytes × LWWRegister} {done : Nat} {cut : Option Nat}
    {c : Wal.AppendCall} (hc : c ∈ leftOf done cut r) : c.record = (r.1, r.2.serialize) := by
  cases done with
  | zero =>
    cases cut with
    | none => exact absurd hc List.not_mem_nil
    | some n =>
      rw [List.mem_singleton.mp hc, cutCall]
      split <;> rfl
  | succ done =>
    rw [List.mem_singleton.mp hc]
    rfl

/-- The log behind one call that may be cut off. -/
theorem log_leftOf (r : Bytes × LWWRegister) (done : Nat) (cut : Option Nat) (disk : Disk) :
    (cutOff [.appendWal (Wal.encodeRecord (r.1, r.2.serialize))] done cut disk).wal =
      disk.wal ++ Wal.log (leftOf done cut r) := by
  have hwhole : Wal.log [wholeCall r] = Wal.encodeRecord (r.1, r.2.serialize) := List.append_nil _
  cases done with
  | zero =>
    cases cut with
    | none => exact (List.append_nil _).symm
    | some n =>
      show disk.wal ++ (Wal.encodeRecord (r.1, r.2.serialize)).take n = _
      rw [leftOf, cutCall]
      split
      · exact congrArg (disk.wal ++ ·) (List.append_nil _).symm
      · next hge => rw [hwhole, List.take_of_length_le (not_lt.mp hge)]
  | succ done =>
    rw [leftOf, hwhole]
    rfl

/-- The log behind a step that was cut off. -/
theorem wal_cutOff (db : ZenithDB) (a : Action) (done : Nat) (cut : Option Nat) :
    (cutOff (diskOps db a) done cut db.disk).wal =
      db.disk.wal ++ Wal.log ((appended db a).flatMap (leftOf done cut)) := by
  have hone : ∀ r : Bytes × LWWRegister,
      (cutOff [.appendWal (Wal.encodeRecord (r.1, r.2.serialize))] done cut db.disk).wal =
        db.disk.wal ++ Wal.log ([r].flatMap (leftOf done cut)) := by
    intro r
    rw [List.flatMap_singleton, log_leftOf]
  have hnone : db.disk.wal = db.disk.wal ++ Wal.log ([].flatMap (leftOf done cut)) :=
    (List.append_nil _).symm
  cases a with
  | put usage key value => exact hone (key, db.localRegister value)
  | putCrdt usage key incoming =>
    rw [diskOps, stored_eq, appended]
    · cases db.getCrdt key with
      | ok existing => exact hone (key, resolve incoming existing)
      | error f => exact hnone
    · exact fun _ => Action.noConfusion
  | work time =>
    rw [crashed_wal_eq (diskOps_work db time) (crashed_iff_cutOff.mpr ⟨done, cut, rfl⟩)]
    exact hnone
  | otherNames n => exact hnone

-- ---------------------------------------------------------------------------
-- What a process knows
-- ---------------------------------------------------------------------------

/-- The memtables hold what the journal says, and the log what was appended to it. -/
structure Recalls (j : Journal) (db : ZenithDB) : Prop where
  wal : db.disk.wal = Wal.log j.calls
  clean : ∀ c ∈ j.calls, Wal.Clean c.record
  lookup : ∀ key, db.lookupMem key = History.last key j.known

/-- A fresh database has an empty journal. -/
theorem recalls_fresh (nodeId : NodeID) (counter : Nat) :
    Recalls ⟨[], []⟩ (fresh nodeId counter) where
  wal := rfl
  clean c hc := absurd hc List.not_mem_nil
  lookup key := by
    show [MemTable.new].findSome? _ = none
    rw [List.findSome?_cons, MemTable.probe_eq_none_of_get (MemTable.get_new key)]
    rfl

variable {j : Journal}

/-- A write appends its record and shows it from then on. -/
theorem Recalls.store (h : Recalls j db) {clock : VectorClock} {usage : Nat}
    {r : Bytes × LWWRegister} (hclean : Wal.Clean (r.1, r.2.serialize))
    (heq : db' = { db with localClock := clock }.storeRecord usage r.1 r.2.serialize) :
    Recalls (j.add (.call (wholeCall r))) db' where
  wal := by
    show _ = Wal.log (j.calls ++ [wholeCall r])
    rw [heq, wal_storeRecord, Wal.log, List.flatMap_append, List.flatMap_singleton]
    exact congrArg (· ++ _) h.wal
  clean := List.forall_mem_append.mpr ⟨h.clean, List.forall_mem_singleton.mpr hclean⟩
  lookup key := by
    show _ = History.last key (j.known ++ [(r.1, r.2.serialize)])
    rw [heq, lookupMem_storeRecord _ _ r.2.serialize_ne_nil, History.last_append_singleton,
      ← h.lookup key]
    rfl

/-- A step that is not cut off. Only writes change log and memtables. -/
theorem Recalls.act (h : Recalls j db) {a : Action} (hclean : ∀ r ∈ stored db a, Wal.Clean r)
    (hstep : ZenithDB.step p db a = .ok db') :
    Recalls ((logEvents db (.act a)).foldl Journal.add j) db' := by
  rw [stored_eq] at hclean
  cases a with
  | put usage key value =>
    exact h.store (r := (key, db.localRegister value)) (hclean _ (List.mem_singleton_self _))
      (Except.ok.inj hstep).symm
  | putCrdt usage key incoming =>
    obtain ⟨existing, hget, hstep⟩ := Except.bind_eq_ok_iff.mp hstep
    rw [logEvents, appended, hget]
    rw [appended, hget] at hclean
    exact h.store (r := (key, resolve incoming existing)) (hclean _ (List.mem_singleton_self _))
      (Except.ok.inj hstep).symm
  | work time =>
    have hsame := work_sameMem hstep
    exact ⟨hsame.wal.trans h.wal, h.clean, fun key => (hsame.lookupMem key).trans (h.lookup key)⟩
  | otherNames n =>
    obtain rfl := Except.ok.inj hstep
    exact ⟨h.wal, h.clean, h.lookup⟩

/-- The calls of a step that was cut off, then the restart. -/
theorem foldl_calls (calls : List Wal.AppendCall) (j : Journal) :
    ((calls.map LogEvent.call).foldl Journal.add j).calls = j.calls ++ calls := by
  induction calls generalizing j with
  | nil => exact (List.append_nil _).symm
  | cons c calls ih =>
    rw [List.map_cons, List.foldl_cons, ih]
    exact List.append_assoc ..

/-- **A step that is cut off.** The next process reads what survives in the log, and its one
memtable shows the last record of each key among that. -/
theorem Recalls.kill (h : Recalls j db) {a : Action} {done : Nat} {cut : Option Nat} {counter : Nat}
    (hclean : ∀ r ∈ stored db a, Wal.Clean r) {Q : Bytes → Bytes → Prop} {nodeId : NodeID}
    (hopened : Opened Q p nodeId (cutOff (diskOps db a) done cut db.disk) db') :
    Recalls ((logEvents db (.kill a done cut counter)).foldl Journal.add j) db' := by
  set calls := j.calls ++ (appended db a).flatMap (leftOf done cut) with hcalls
  have hjournal : (logEvents db (.kill a done cut counter)).foldl Journal.add j =
      ⟨calls, Wal.survivors false calls⟩ := by
    rw [logEvents, List.foldl_append, hcalls, ← foldl_calls]
    rfl
  have hwal : (cutOff (diskOps db a) done cut db.disk).wal = Wal.log calls := by
    rw [wal_cutOff, h.wal, hcalls, Wal.log, Wal.log, Wal.log, List.flatMap_append]
  -- what was appended, whole or in part, are records of the step
  have hcallsClean : ∀ c ∈ calls, Wal.Clean c.record := by
    refine List.forall_mem_append.mpr ⟨h.clean, fun c hc => ?_⟩
    obtain ⟨r, hr, hc⟩ := List.mem_flatMap.mp hc
    rw [record_leftOf hc]
    exact hclean _ (stored_eq db a ▸ List.mem_map_of_mem hr)
  rw [hjournal]
  refine ⟨hopened.directory ▸ hwal, hcallsClean, fun key => ?_⟩
  -- replay puts the surviving records in order
  have hget := replayLog_log hwal hcallsClean p key
  show db'.lookupMem key = History.last key (Wal.survivors false calls)
  unfold ZenithDB.lookupMem
  rw [hopened.memtables, List.findSome?_cons, List.findSome?_nil, MemTable.probe_eq, hget]
  cases hlast : History.last key (Wal.survivors false calls) with
  | none => rfl
  | some raw =>
    obtain ⟨c, -, hrecord⟩ := mem_of_survivor (History.last_mem hlast)
    have hne : raw ≠ [] := by
      rw [← (Prod.mk.inj hrecord).2]
      exact c.register.serialize_ne_nil
    simp only [Option.filter, decide_eq_true hne, if_true]

-- ---------------------------------------------------------------------------
-- Runs
-- ---------------------------------------------------------------------------

/-- A property of values is kept by merging, which makes up none. -/
theorem keptByMerge_value (V : Bytes → Prop) : KeptByMerge fun _ r => V r.value := by
  intro key r o hr ho
  rcases LWWRegister.value_merge r o with h | h <;> rw [h]
  · exact hr
  · exact ho

/-- What a step must be, whether or not it is cut off: a cut put has the same register as a
whole one. -/
def Survivable (ids : List NodeID) (R : Bytes → LWWRegister → Prop) (db : ZenithDB) :
    OutageAction → Prop
  | .act a => Lawful ids R db a
  | .kill a _ _ _ => Lawful ids R db a

instance [∀ key r, Decidable (R key r)] (db : ZenithDB) :
    ∀ a, Decidable (Survivable ids R db a)
  | .act a => inferInstanceAs (Decidable (Lawful ids R db a))
  | .kill a _ _ _ => inferInstanceAs (Decidable (Lawful ids R db a))

/-- **One step or outage.** -/
theorem outage_step (hR : KeptByMerge R) (p : Platform) (events : List LogEvent)
    (h : Robust ids R db ∧ Recalls (Journal.of events) db) {a : OutageAction}
    (ha : Survivable ids R db a) :
    (outageStep p db a).Post
      (fun db' => Robust ids R db' ∧ Recalls (Journal.of (events ++ logEvents db a)) db')
      WriteFailed := by
  obtain ⟨hrobust, hrecalls⟩ := h
  -- a step that ends, and one that is cut off with the opening behind it
  cases a with
  | act a =>
    have ha : Lawful ids R db a := ha
    have hstep := hrobust.step hR p ha
    show (ZenithDB.step p db a).Post _ _
    cases hdb : ZenithDB.step p db a with
    | error f => rwa [hdb] at hstep
    | ok db' =>
      rw [hdb] at hstep
      refine ⟨hstep, ?_⟩
      rw [Journal.of_append]
      exact hrecalls.act ha.clean hdb
  | kill a done cut counter =>
    have ha : Lawful ids R db a := ha
    have hcrash : Crashed (diskOps db a) db.disk (cutOff (diskOps db a) done cut db.disk) :=
      crashed_iff_cutOff.mpr ⟨done, cut, rfl⟩
    obtain ⟨db', hopen, hopened, hrobust'⟩ := hrobust.crashed hR p ha hcrash hrobust.node counter
    show (openDB p db.nodeId (cutOff (diskOps db a) done cut db.disk) counter).Post _ _
    rw [hopen]
    refine ⟨hrobust', ?_⟩
    rw [Journal.of_append]
    exact hrecalls.kill ha.clean hopened

/-- **Reads after outages.** Processes are killed in the middle of any steps, any number of
times, and after each time the directory can be opened. A point read then shows the last
record of the key that survives in the log, or that was written since; without one, and in
scans, it shows nothing but registers that have every property that merging keeps and that
all writes had. A run ends early only at a write that is too large for a file.

Hypotheses:
* `hR` — merging keeps the property `R`, which is any;
* `hnode` — the node's own id is one of `ids`, over which all clocks are;
* `hlawful` — at each step of the run, which starts from an empty directory, the records are
  clean, fit and have the property, and the names of new files are free. -/
theorem reads_after_outages (hR : KeptByMerge R) (p : Platform) {nodeId : NodeID}
    (hnode : nodeId ∈ ids) {counter : Nat} {as : List OutageAction}
    (hlawful : (outageSystem p).Along (fun _ => Survivable ids R) [] (fresh nodeId counter) as) :
    ((outageSystem p).run (fresh nodeId counter) as).Post
      (fun db =>
        (∀ key, ∃ found, db.getCrdt key = .ok found ∧ (∀ r ∈ found, R key r) ∧
          ∀ raw, History.last key
              (Journal.of ((outageSystem p).trace (fresh nodeId counter) as)).known = some raw →
            readRegister (some raw) = .ok found) ∧
        ∀ start stop, ∃ out, db.scanCrdt p start stop = .ok out ∧ ∀ kv ∈ out, R kv.1 kv.2)
      WriteFailed := by
  have hrun := System.run_outcome (S := outageSystem p)
    (P := fun events db => Robust ids R db ∧ Recalls (Journal.of events) db)
    (fun events _ _ h ha => outage_step hR p events h ha)
    (l := []) ⟨robust_fresh hnode counter, recalls_fresh nodeId counter⟩ hlawful
  refine hrun.imp fun db _ ⟨hrobust, hrecalls⟩ => ⟨fun key => ?_, fun start stop => ?_⟩
  · obtain ⟨found, hget, hfound⟩ := hrobust.memory.readProper hR key
    refine ⟨found, hget, fun r hr => (hfound r hr).has, fun raw hlast => ?_⟩
    have hlookup : db.lookupMem key = some raw := (hrecalls.lookup key).trans hlast
    rw [← hget]
    show _ = db.getCrdt key
    unfold ZenithDB.getCrdt ZenithDB.lookup
    rw [hlookup]
    rfl
  · obtain ⟨out, hscan, hout⟩ := hrobust.memory.scanProper hR p start stop
    exact ⟨out, hscan, fun kv hkv => (hout kv hkv).has⟩

/-- A put is cut off behind nine bytes; the put behind the fragment is lost when the next
process is killed. -/
def twoOutages : List OutageAction :=
  [.act (.put 0 [107] [118]), .kill (.put 0 [107] [119]) 0 (some 9) 0,
    .act (.put 0 [107] [120]), .kill (.otherNames 0) 0 none 0]

/-- What the first put wrote is there again. -/
theorem reads_after_outages_twice :
    ∃ db, (outageSystem .stable).run (fresh [65] 0) twoOutages = .ok db ∧
      (Journal.of ((outageSystem .stable).trace (fresh [65] 0) twoOutages)).known =
        [([107], LWWRegister.serialize ⟨[118], VectorClock.empty.increment [65]⟩)] ∧
      ∃ found, db.getCrdt [107] = .ok found ∧ (∀ r ∈ found, r.value ∈ [[118], [119], [120]]) ∧
        ∀ raw, History.last [107] (Journal.of
            ((outageSystem .stable).trace (fresh [65] 0) twoOutages)).known = some raw →
          readRegister (some raw) = .ok found := by
  obtain ⟨db, hrun⟩ := Except.exists_eq_ok
    (x := (outageSystem .stable).run (fresh [65] 0) twoOutages) (by decide +kernel)
  have hnode : ([65] : NodeID) ∈ [[65]] := by decide
  have hR : KeptByMerge fun _ r => r.value ∈ [[118], [119], [120]] := keptByMerge_value _
  have hlawful : (outageSystem .stable).Along
      (fun _ => Survivable [[65]] fun _ r => r.value ∈ [[118], [119], [120]]) []
      (fresh [65] 0) twoOutages := by decide +kernel
  exact ⟨db, hrun, by decide +kernel,
    ((reads_after_outages hR .stable hnode hlawful).result hrun).1 [107]⟩

end ZenithDB

end Zenith
