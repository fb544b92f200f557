import Zenith.DB.ManifestLog
import Zenith.DB.Reopen

/-!
# Zenith — the names of table files

`new_filename` makes a name from the level, the second and a counter that starts at zero in
every process. Within one process the counter keeps names apart, and between processes only
the second does. Two processes that take turns within one second give the same name to
different files, and `SSTable::create` truncates what is there.

The counter has 64 bits in the code and is a natural number here. The two are the same until
a process has taken 2^64 numbers, and `counter_run` says how many it has taken: one for each
name, and those that other databases of the process took. What is said here about names is
about processes that take fewer.

The trace of `nameSystem` lists the names that were taken and the restarts between them, and
`nameLedger` sorts them into those of earlier openings and those of the running process. The
invariant `NamesTaken` relates the ledger to the manifest: whatever was ever added to it is
a name that was taken. So a new name is unlisted for two reasons, which the lemma
`NamesTaken.unlisted` puts together: the process has passed the numbers of its own names,
and the names of earlier openings are avoided by assumption.

The assumption `Apart` compares level, second and number, and not the texts. A name
determines the three, since the parts are separated by underscores and written in decimal
(`Naming.name_inj`).

Main results:

* `live_files_kept` — as long as no opening of the directory names a file for the level, the
  second and the number of an earlier opening, no step names or writes a file that is
  listed;
* `counter_run` — after a run the counter has moved on by the numbers taken in it.
-/

namespace Zenith

open Bytes

namespace ZenithDB

-- ---------------------------------------------------------------------------
-- What a step names
-- ---------------------------------------------------------------------------

/-- What `new_filename` makes a name from. -/
structure Naming where
  level : Nat
  second : Nat
  id : Nat
  deriving DecidableEq

def Naming.name (n : Naming) : Bytes := newFilename n.level n.second n.id

/-- The names of a flush, the first with the number `counter`. -/
def flushNamings (time : Nat → Nat) : Nat → List ImmNode → List Naming
  | _, [] => []
  | counter, node :: rest =>
    if node.flushed = true ∨ node.mt.sortedEntries = [] then flushNamings time counter rest
    else ⟨0, time counter, counter⟩ :: flushNamings time (counter + 1) rest

/-- The name of the output of a compaction. -/
def planNamings (time : Nat → Nat) (db : ZenithDB) : List Naming :=
  (db.planCompaction time).toList.map fun task => ⟨task.level + 1, time db.counter, db.counter⟩

/-- The names that a step takes from `new_filename`. -/
def namings (db : ZenithDB) : LifeAction → List Naming
  | .act (.work time) =>
    match db.worker with
    | .flushing => if db.immut.all (·.flushed) then [] else flushNamings time db.counter db.immut
    | .planning => planNamings time db
    | .executing _ => []
    | .applying _ => []
  | .act (.put _ _ _) => []
  | .act (.putCrdt _ _ _) => []
  | .act (.otherNames _) => []
  | .reopen _ _ => []

/-- What matters for names in the lives of a directory. -/
inductive NameEvent
  | opened
  | named (n : Naming)

def nameEvents (db : ZenithDB) (a : LifeAction) : List NameEvent :=
  match a with
  | .reopen _ _ => [.opened]
  | .act _ => (namings db a).map .named

/-- The lives of a directory as a step system whose trace lists names and restarts. -/
def nameSystem (p : Platform) : System ZenithDB LifeAction NameEvent Fault :=
  ⟨lifeStep p, nameEvents⟩

/-- The calls that a step makes to the manifest. Opening a directory makes none. -/
def lifeCalls (db : ZenithDB) : LifeAction → List Manifest.Call
  | .act a => manifestCalls db a
  | .reopen _ _ => []

/-- The names taken by earlier openings of the directory, and those taken since. -/
structure NameLedger where
  past : List Naming
  current : List Naming

def NameLedger.note (l : NameLedger) : NameEvent → NameLedger
  | .opened => ⟨l.past ++ l.current, []⟩
  | .named n => { l with current := l.current ++ [n] }

def nameLedger (events : List NameEvent) : NameLedger := events.foldl NameLedger.note ⟨[], []⟩

/-- No name of the step was made from the level, the second and the number of a
name that an earlier opening took. -/
def Apart (events : List NameEvent) (db : ZenithDB) (a : LifeAction) : Prop :=
  ∀ n ∈ namings db a, n ∉ (nameLedger events).past

/-- The names that the metadata lists, and those that opening the directory would list. -/
def Listed (p : Platform) (db : ZenithDB) (f : Bytes) : Prop :=
  f ∈ db.levelsMeta.flatten ∨ f ∈ (loadedLevels p db.disk).flatten

/-- A step gives out no listed name, none twice, and leaves listed files as they are. -/
structure KeepsListed (p : Platform) (db : ZenithDB) (a : LifeAction) : Prop where
  unlisted : ∀ n ∈ namings db a, ¬ Listed p db n.name
  distinct : ((namings db a).map Naming.name).Nodup
  untouched : ∀ db', lifeStep p db a = .ok db' → ∀ f, Listed p db f →
    db'.disk.files.get? f = db.disk.files.get? f

/-- A name determines what it was made of. -/
theorem Naming.name_inj {m n : Naming} (h : m.name = n.name) : m = n := by
  obtain ⟨hlevel, hsecond, hid⟩ := newFilename_inj h
  obtain ⟨level, second, id⟩ := m
  obtain ⟨level', second', id'⟩ := n
  simp_all

/-- The calls of a flush to the manifest, in terms of its names. -/
theorem flushCalls_eq (time : Nat → Nat) (counter : Nat) (nodes : List ImmNode) :
    flushCalls time counter nodes =
      (flushNamings time counter nodes).map fun n => .addSstable 0 n.name := by
  induction nodes generalizing counter with
  | nil => rfl
  | cons node nodes ih =>
    rw [flushCalls, flushNamings]
    split
    · exact ih counter
    · rw [ih, List.map_cons]
      rfl

/-- A flush numbers its names in ascending order from the counter on. -/
theorem flushNamings_ids (time : Nat → Nat) (counter : Nat) (nodes : List ImmNode) :
    (∀ n ∈ flushNamings time counter nodes, counter ≤ n.id ∧ n.level = 0) ∧
      (flushNamings time counter nodes).Pairwise fun m n => m.id < n.id := by
  induction nodes generalizing counter with
  | nil => exact ⟨fun n hn => absurd hn List.not_mem_nil, .nil⟩
  | cons node nodes ih =>
    rw [flushNamings]
    split
    · exact ih counter
    · obtain ⟨hids, hpairs⟩ := ih (counter + 1)
      refine ⟨List.forall_mem_cons.mpr ⟨⟨le_refl _, rfl⟩, fun n hn => ?_⟩, .cons (fun n hn => ?_) hpairs⟩
      · exact ⟨by have := (hids n hn).1; omega, (hids n hn).2⟩
      · exact (hids n hn).1

/-- A plan takes one name, with the next number. -/
theorem planNamings_eq {time : Nat → Nat} {db : ZenithDB} {task : CompactionTask}
    (h : db.planCompaction time = some task) :
    ∃ n, planNamings time db = [n] ∧ task.outputFilename = n.name ∧ n.id = db.counter := by
  unfold planNamings
  rw [h]
  refine ⟨_, rfl, ?_, rfl⟩
  unfold planCompaction at h
  obtain ⟨lvl, -, rfl⟩ := Option.map_eq_some_iff.mp h
  rfl

-- ---------------------------------------------------------------------------
-- The invariant
-- ---------------------------------------------------------------------------

/-- Every name that was ever added to the manifest is one that was taken, and the
running process has its counter past the numbers it took. -/
structure NamesTaken (calls : List Manifest.Call) (events : List NameEvent) (db : ZenithDB) :
    Prop where
  logged : Logged calls db
  taken : ∀ l, ∀ f ∈ addedTo l calls,
    ∃ n ∈ (nameLedger events).past ++ (nameLedger events).current, f = n.name
  numbered : ∀ n ∈ (nameLedger events).current, n.id < db.counter
  /-- the output of a compaction under way has a name that is taken and not added -/
  pending : ∀ task, Pending db.worker task →
    (∃ n ∈ (nameLedger events).current, task.outputFilename = n.name) ∧
      ∀ l, task.outputFilename ∉ addedTo l calls

variable {calls : List Manifest.Call} {events : List NameEvent} {db db' : ZenithDB} {p : Platform}

theorem namesTaken_fresh (nodeId : NodeID) (counter : Nat) :
    NamesTaken [] [] (fresh nodeId counter) where
  logged := logged_fresh nodeId counter
  taken := fun _ _ hf => absurd hf List.not_mem_nil
  numbered := fun _ hn => absurd hn List.not_mem_nil
  pending := by rintro task (htask | htask) <;> exact absurd htask (by simp [fresh])

/-- Opening the directory makes all names so far names of earlier openings. -/
theorem nameLedger_opened (events : List NameEvent) :
    nameLedger (events ++ [.opened]) =
      ⟨(nameLedger events).past ++ (nameLedger events).current, []⟩ := by
  unfold nameLedger
  rw [List.foldl_append]
  rfl

theorem nameLedger_named (events : List NameEvent) (ns : List Naming) :
    nameLedger (events ++ ns.map .named) =
      ⟨(nameLedger events).past, (nameLedger events).current ++ ns⟩ := by
  induction ns using List.reverseRecOn with
  | nil =>
    rw [List.map_nil, List.append_nil, List.append_nil]
  | append_singleton ns n ih =>
    rw [List.map_append, ← List.append_assoc, nameLedger, List.foldl_append, ← nameLedger, ih,
      ← List.append_assoc]
    rfl

/-- What is listed was added. -/
theorem Logged.added_of_listed (h : Logged calls db) {f : Bytes} (hf : Listed p db f) :
    ∃ l, f ∈ addedTo l calls := by
  rcases hf with hf | hf
  · obtain ⟨names, hnames, hf⟩ := List.mem_flatten.mp hf
    obtain ⟨l, hl⟩ := List.mem_iff_getElem?.mp hnames
    refine ⟨l, (h.levels l).subset ?_⟩
    rwa [List.getD_eq_getElem?_getD, hl]
  · rw [h.loadedLevels p] at hf
    obtain ⟨names, hnames, hf⟩ := List.mem_flatten.mp hf
    obtain ⟨l, -, rfl⟩ := List.mem_map.mp hnames
    exact ⟨l, hf⟩

/-- **No name of a step is listed**: the running process has passed the numbers it took
itself, and the names of earlier openings are avoided. -/
theorem NamesTaken.unlisted (h : NamesTaken calls events db) {n : Naming}
    (hid : db.counter ≤ n.id) (hapart : n ∉ (nameLedger events).past) (l : Nat) :
    n.name ∉ addedTo l calls := by
  intro hadded
  obtain ⟨m, hm, heq⟩ := h.taken l _ hadded
  obtain rfl := Naming.name_inj heq
  rcases List.mem_append.mp hm with hpast | hcurrent
  · exact hapart hpast
  · have := h.numbered n hcurrent
    omega

/-- What a flush does to counter and files. -/
theorem flushNodes_files {time : Nat → Nat} {nodes : List ImmNode}
    (hflush : nodes.foldlM (flushNode time) db = .ok db') :
    db'.counter = db.counter + (flushNamings time db.counter nodes).length ∧
      (∀ n ∈ flushNamings time db.counter nodes, n.id < db'.counter) ∧
      ∀ f, (∀ n ∈ flushNamings time db.counter nodes, f ≠ n.name) →
        db'.disk.files.get? f = db.disk.files.get? f := by
  -- each memtable that is written takes one number and one file
  induction nodes generalizing db with
  | nil =>
    obtain rfl := Except.ok.inj hflush
    exact ⟨rfl, fun n hn => absurd hn List.not_mem_nil, fun f _ => rfl⟩
  | cons node nodes ih =>
    rw [List.foldlM_cons] at hflush
    obtain ⟨mid, hnode, hrest⟩ := Except.bind_eq_ok_iff.mp hflush
    obtain ⟨hmoved, hids, hfiles⟩ := ih hrest
    rw [flushNamings]
    obtain ⟨hskip, rfl⟩ | ⟨hskip, file, opened, -, -, hmid⟩ := flushNode_cases hnode
    · rw [if_pos hskip]
      exact ⟨hmoved, hids, hfiles⟩
    · rw [if_neg hskip]
      -- opened or not, the file is written and the counter moves on
      obtain ⟨hcounter, hwritten⟩ : mid.counter = db.counter + 1 ∧ mid.disk.files =
          db.disk.files.insert (newFilename 0 (time db.counter) db.counter) file := by
        rw [hmid]
        cases opened <;> exact ⟨rfl, rfl⟩
      rw [hcounter] at hmoved hids hfiles
      refine ⟨by rw [List.length_cons]; omega,
        List.forall_mem_cons.mpr ⟨show db.counter < db'.counter by omega, hids⟩, fun f hf => ?_⟩
      obtain ⟨hne, hf⟩ := List.forall_mem_cons.mp hf
      rw [hfiles f hf, hwritten, SortedMap.get?_insert]
      exact if_neg hne

-- ---------------------------------------------------------------------------
-- Steps
-- ---------------------------------------------------------------------------

/-- A step takes names, adds some of them or the output under way, and may plan a
compaction whose output has a name it takes. -/
theorem NamesTaken.advance (h : NamesTaken calls events db) {more : List Manifest.Call}
    {ns : List Naming} (hlogged : Logged (calls ++ more) db')
    (hadded : ∀ l, ∀ f ∈ addedTo l more, (∃ n ∈ ns, f = n.name) ∨
      ∃ task, Pending db.worker task ∧ f = task.outputFilename)
    (hcounter : db.counter ≤ db'.counter) (hids : ∀ n ∈ ns, n.id < db'.counter)
    (hpending : ∀ task, Pending db'.worker task → more = [] ∧
      ((∃ n ∈ ns, task.outputFilename = n.name ∧ ∀ l, n.name ∉ addedTo l calls) ∨
        ∃ old, Pending db.worker old ∧ task.outputFilename = old.outputFilename)) :
    NamesTaken (calls ++ more) (events ++ ns.map .named) db' := by
  refine ⟨hlogged, ?_, ?_, ?_⟩
  -- a name that is added was taken before, in this step, or for the task under way
  · intro l f hf
    rw [nameLedger_named, ← List.append_assoc]
    rw [addedTo_append] at hf
    rcases List.mem_append.mp hf with hf | hf
    · obtain ⟨n, hn, rfl⟩ := h.taken l f hf
      exact ⟨n, List.mem_append_left _ hn, rfl⟩
    · rcases hadded l f hf with ⟨n, hn, rfl⟩ | ⟨task, htask, rfl⟩
      · exact ⟨n, List.mem_append_right _ hn, rfl⟩
      · obtain ⟨n, hn, heq⟩ := (h.pending task htask).1
        exact ⟨n, List.mem_append_left _ (List.mem_append_right _ hn), heq⟩
  · rw [nameLedger_named]
    refine List.forall_mem_append.mpr ⟨fun n hn => ?_, hids⟩
    have := h.numbered n hn
    omega
  -- the task that is under way now has its name from this step or from an old task
  · intro task htask
    obtain ⟨rfl, hname⟩ := hpending task htask
    rw [nameLedger_named, List.append_nil]
    rcases hname with ⟨n, hn, heq, hunlisted⟩ | ⟨old, hold, heq⟩
    · exact ⟨⟨n, List.mem_append_right _ hn, heq⟩, by rwa [heq]⟩
    · obtain ⟨⟨n, hn, hname⟩, hunlisted⟩ := h.pending old hold
      exact ⟨⟨n, List.mem_append_left _ hn, heq.trans hname⟩, by rwa [heq]⟩

/-- **The directory is opened again**: what was taken so far was taken by an earlier
opening. -/
theorem NamesTaken.openDB (h : NamesTaken calls events db) {counter : Nat} {wal : Bytes}
    (hopen : ZenithDB.openDB p db.nodeId { db.disk with wal := wal } counter = .ok db') :
    NamesTaken calls (events ++ [.opened]) db' := by
  unfold ZenithDB.openDB at hopen
  obtain ⟨⟨layout, nextAddr⟩, -, hopen⟩ := Except.bind_eq_ok_iff.mp hopen
  obtain rfl := Except.ok.inj hopen
  -- the constructor takes no name and adds none
  have hload : ZenithDB.loadedLevels p { db.disk with wal := wal } =
      (List.range 7).map fun l => addedTo l calls := h.logged.loadedLevels p
  refine ⟨⟨h.logged.manifest, h.logged.wellFormed, ?_, fun l => ?_, h.logged.removed, ?_, ?_⟩,
    ?_, ?_, ?_⟩
  · show (ZenithDB.loadedLevels p { db.disk with wal := wal }).length = _
    rw [hload]
    rfl
  · show ((ZenithDB.loadedLevels p { db.disk with wal := wal }).getD l []).Sublist _
    rw [hload, List.getD_eq_getElem?_getD, List.getElem?_map]
    by_cases hl : l < 7
    · rw [List.getElem?_range hl]
      exact List.Sublist.refl _
    · rw [List.getElem?_eq_none (by simpa using hl)]
      exact List.nil_sublist _
  -- a new process has no task under way, and its numbers begin anew
  · exact fun task htask => absurd (.inl htask) (not_pending_flushing task)
  · exact fun task htask => absurd (.inr htask) (not_pending_flushing task)
  · rw [nameLedger_opened]
    simpa only [List.append_nil] using h.taken
  · rw [nameLedger_opened]
    exact fun n hn => absurd hn List.not_mem_nil
  · exact fun task htask => absurd htask (not_pending_flushing task)

/-- The names that a flush adds are the names it takes. -/
theorem addedTo_flushCalls {time : Nat → Nat} {counter : Nat} {nodes : List ImmNode} {l : Nat}
    {f : Bytes} (hf : f ∈ addedTo l (flushCalls time counter nodes)) :
    ∃ n ∈ flushNamings time counter nodes, f = n.name := by
  rw [flushCalls_eq] at hf
  obtain ⟨c, hc, hf⟩ := List.mem_flatMap.mp hf
  obtain ⟨n, hn, rfl⟩ := List.mem_map.mp hc
  rw [Manifest.Call.added] at hf
  split at hf
  · exact ⟨n, hn, List.mem_singleton.mp hf⟩
  · exact absurd hf List.not_mem_nil

/-- A compaction adds its output and nothing else. -/
theorem addedTo_compactionCalls {task : CompactionTask} {l : Nat} {f : Bytes}
    (hf : f ∈ addedTo l (compactionCalls task)) : f = task.outputFilename := by
  obtain ⟨c, hc, hf⟩ := List.mem_flatMap.mp hf
  unfold compactionCalls at hc
  rcases List.mem_append.mp hc with hc | hc
  · split at hc
    · rw [List.mem_singleton.mp hc, Manifest.Call.added] at hf
      split at hf
      · exact List.mem_singleton.mp hf
      · exact absurd hf List.not_mem_nil
    · exact absurd hc List.not_mem_nil
  · rw [List.mem_singleton.mp hc, Manifest.Call.added] at hf
    split at hf
    · exact absurd hf List.not_mem_nil
    · exact absurd hf List.not_mem_nil

/-- The names of a step have numbers from the counter on, and no two are equal. -/
theorem namings_ids (db : ZenithDB) (a : LifeAction) :
    (∀ n ∈ namings db a, db.counter ≤ n.id) ∧ ((namings db a).map Naming.name).Nodup := by
  have hnone : ∀ ns : List Naming, ns = [] → (∀ n ∈ ns, db.counter ≤ n.id) ∧ (ns.map Naming.name).Nodup := by
    rintro ns rfl
    exact ⟨fun n hn => absurd hn List.not_mem_nil, .nil⟩
  -- only a flush and the planning of a compaction take names
  cases a with
  | reopen counter wal => exact hnone _ rfl
  | act a =>
    cases a with
    | put usage key value => exact hnone _ rfl
    | putCrdt usage key incoming => exact hnone _ rfl
    | otherNames n => exact hnone _ rfl
    | work time =>
      unfold namings
      cases db.worker with
      | flushing =>
        dsimp only
        split
        · exact hnone _ rfl
        · -- names of one flush differ by their ids
          obtain ⟨hids, hpairs⟩ := flushNamings_ids time db.counter db.immut
          refine ⟨fun n hn => (hids n hn).1, ?_⟩
          refine List.pairwise_map.mpr (hpairs.imp fun hlt heq => ?_)
          rw [Naming.name_inj heq] at hlt
          exact lt_irrefl _ hlt
      | planning =>
        dsimp only
        cases hplan : db.planCompaction time with
        | none => exact hnone _ (by unfold planNamings; rw [hplan]; rfl)
        | some task =>
          obtain ⟨n, heq, -, hid⟩ := planNamings_eq hplan
          rw [heq]
          exact ⟨List.forall_mem_singleton.mpr hid.ge, List.nodup_singleton _⟩
      | executing task => exact hnone _ rfl
      | applying task => exact hnone _ rfl

/-- Executing a compaction writes at most its output file. -/
theorem executeCompaction_files {task task' : CompactionTask}
    (h : db.executeCompaction task = .ok (db', task')) :
    db'.counter = db.counter ∧
      ∀ f, f ≠ task.outputFilename → db'.disk.files.get? f = db.disk.files.get? f := by
  obtain ⟨merged, -, ⟨rfl, -⟩ | ⟨file, opened, -, -, rfl, -⟩⟩ := executeCompaction_cases h
  · exact ⟨rfl, fun f _ => rfl⟩
  · have hfiles : ∀ f, f ≠ task.outputFilename →
        (db.disk.files.insert task.outputFilename file).get? f = db.disk.files.get? f := by
      intro f hf
      rw [SortedMap.get?_insert, if_neg hf]
    cases opened with
    | none => exact ⟨rfl, hfiles⟩
    | some t => exact ⟨rfl, hfiles⟩

/-- Applying a compaction writes no file and takes no number. -/
theorem applyCompaction_files (db : ZenithDB) (task : CompactionTask) :
    (db.applyCompaction task).counter = db.counter ∧
      (db.applyCompaction task).disk.files = db.disk.files := by
  unfold applyCompaction
  cases task.outputSst <;> exact ⟨rfl, rfl⟩

-- ---------------------------------------------------------------------------
-- The numbers
-- ---------------------------------------------------------------------------

/-- How many numbers of the counter a step takes. Other databases of the process take
numbers, too. -/
def numbersTaken (db : ZenithDB) : Action → Nat
  | .otherNames n => n
  | a => (namings db (.act a)).length

/-- The runs of one process, with a trace of how many numbers each step takes. -/
def numberSystem (p : Platform) : System ZenithDB Action Nat Fault :=
  ⟨step p, fun db a => [numbersTaken db a]⟩

/-- **One step** moves the counter on by the numbers it takes. -/
theorem counter_step {a : Action} (hstep : step p db a = .ok db') :
    db'.counter = db.counter + numbersTaken db a := by
  cases a with
  | put usage key value =>
    obtain rfl := Except.ok.inj hstep
    show (ZenithDB.storeRecord _ usage key _).counter = _
    unfold ZenithDB.storeRecord
    split <;> rfl
  | putCrdt usage key incoming =>
    obtain ⟨existing, -, hstep⟩ := Except.bind_eq_ok_iff.mp hstep
    obtain rfl := Except.ok.inj hstep
    unfold ZenithDB.storeRecord
    split <;> rfl
  | otherNames n =>
    obtain rfl := Except.ok.inj hstep
    rfl
  | work time =>
    unfold numbersTaken namings
    -- the counter moves with the names that are taken, and with nothing else
    cases work_cases hstep with
    | rested hworker hall =>
      rw [hworker]
      dsimp only
      rw [if_pos hall]
      rfl
    | flushed hworker hall hlast =>
      rw [hworker]
      dsimp only
      rw [if_neg hall]
      exact (flushNodes_files hlast).1
    | idle hworker hplan =>
      rw [hworker]
      dsimp only
      rw [planNamings, hplan]
      rfl
    | planned hworker hplan =>
      rw [hworker]
      dsimp only
      rw [planNamings, hplan]
      rfl
    | executed hworker hexec =>
      rw [hworker]
      exact (executeCompaction_files hexec).1
    | @applied task hworker =>
      rw [hworker]
      exact (applyCompaction_files db task).1

/-- **A process that has taken fewer than 2^64 numbers** has a counter below 2^64, which
has not wrapped around. By induction on its steps. -/
theorem counter_run {as : List Action} (hrun : (numberSystem p).run db as = .ok db') :
    db'.counter = db.counter + ((numberSystem p).trace db as).sum := by
  induction as generalizing db with
  | nil =>
    obtain rfl := Except.ok.inj hrun
    rfl
  | cons a as ih =>
    obtain ⟨mid, hstep, hrest⟩ := System.run_cons_eq_ok hrun
    have hmid : mid.counter = db.counter + numbersTaken db a := counter_step hstep
    rw [System.trace_cons_ok hstep, ih hrest, hmid]
    show _ = _ + (numbersTaken db a :: (numberSystem p).trace mid as).sum
    rw [List.sum_cons, Nat.add_assoc]

-- ---------------------------------------------------------------------------
-- The worker
-- ---------------------------------------------------------------------------

/-- **One step of the worker** takes names and leaves every file that was added alone. -/
theorem NamesTaken.work (h : NamesTaken calls events db) {time : Nat → Nat}
    (hapart : Apart events db (.act (.work time))) (hwork : db.work p time = .ok db') :
    NamesTaken (calls ++ manifestCalls db (.work time))
        (events ++ nameEvents db (.act (.work time))) db' ∧
      ∀ l, ∀ f ∈ addedTo l calls, db'.disk.files.get? f = db.disk.files.get? f := by
  have hlogged : Logged (calls ++ manifestCalls db (.work time)) db' := h.logged.step hwork
  have hunlisted : ∀ n ∈ namings db (.act (.work time)), ∀ l, n.name ∉ addedTo l calls :=
    fun n hn => h.unlisted ((namings_ids db _).1 n hn) (hapart n hn)
  unfold nameEvents
  dsimp only
  rw [manifestCalls] at hlogged ⊢
  unfold namings at hunlisted ⊢
  cases work_cases hwork with
  | rested hworker hall =>
    rw [hworker] at hlogged ⊢
    dsimp only at hlogged ⊢
    rw [if_pos hall] at hlogged ⊢
    rw [if_pos hall]
    exact ⟨h.advance hlogged (fun _ f hf => absurd hf List.not_mem_nil) (le_refl _)
      (fun n hn => absurd hn List.not_mem_nil)
      (fun task htask => absurd htask (not_pending_planning task)), fun _ _ _ => rfl⟩
  | flushed hworker hall hlast =>
    rw [hworker] at hlogged hunlisted ⊢
    dsimp only at hlogged hunlisted ⊢
    rw [if_neg hall] at hlogged hunlisted ⊢
    rw [if_neg hall]
    obtain ⟨hmoved, hids, hfiles⟩ := flushNodes_files hlast
    have hle := (Nat.le_add_right _ _).trans hmoved.ge
    -- what a flush adds it has just named, and no file of an earlier name is written
    refine ⟨h.advance hlogged (fun _ f hf => .inl (addedTo_flushCalls hf)) hle hids
      (fun task htask => absurd htask (not_pending_planning task)), fun l f hf => hfiles f ?_⟩
    rintro n hn rfl
    exact hunlisted n hn l hf
  | idle hworker hplan =>
    rw [hworker] at hlogged ⊢
    dsimp only at hlogged ⊢
    have hnone : planNamings time db = [] := by
      unfold planNamings
      rw [hplan]
      rfl
    rw [hnone]
    exact ⟨h.advance hlogged (fun _ f hf => absurd hf List.not_mem_nil) (le_refl _)
      (fun n hn => absurd hn List.not_mem_nil)
      (fun task htask => absurd htask (not_pending_flushing task)), fun _ _ _ => rfl⟩
  | planned hworker hplan =>
    rw [hworker] at hlogged hunlisted ⊢
    dsimp only at hlogged hunlisted ⊢
    obtain ⟨n, heq, hname, hid⟩ := planNamings_eq hplan
    rw [heq] at hunlisted ⊢
    refine ⟨h.advance hlogged (fun _ f hf => absurd hf List.not_mem_nil) (Nat.le_succ _)
      (List.forall_mem_singleton.mpr (by rw [hid]; exact Nat.lt_succ_self _)) ?_, fun _ _ _ => rfl⟩
    -- the task that is under way is the new one
    rintro task' (htask | htask)
    · obtain rfl := Worker.executing.inj htask
      exact ⟨rfl, .inl ⟨n, List.mem_singleton_self _, hname, hunlisted n (List.mem_singleton_self _)⟩⟩
    · cases htask
  | @executed task task' mid hworker hexec =>
    rw [hworker] at hlogged ⊢
    dsimp only at hlogged ⊢
    obtain ⟨hcounter, hfiles⟩ := executeCompaction_files hexec
    obtain ⟨-, -, -, -, hname⟩ := executeCompaction_manifest hexec
    refine ⟨h.advance hlogged (fun _ f hf => absurd hf List.not_mem_nil) hcounter.ge
      (fun n hn => absurd hn List.not_mem_nil) ?_, fun l f hf => hfiles f ?_⟩
    · rintro task'' (htask | htask)
      · cases htask
      · obtain rfl := Worker.applying.inj htask
        exact ⟨rfl, .inr ⟨task, .inl hworker, hname⟩⟩
    · -- the output is a new file
      rintro rfl
      exact (h.pending task (.inl hworker)).2 l hf
  | @applied task hworker =>
    rw [hworker] at hlogged ⊢
    dsimp only at hlogged ⊢
    -- the name that is added is the one that was taken when the task was planned
    have hsame := applyCompaction_files db task
    refine ⟨h.advance hlogged (fun _ f hf => .inr ⟨task, .inr hworker, addedTo_compactionCalls hf⟩)
      hsame.1.ge (fun n hn => absurd hn List.not_mem_nil)
      (fun task htask => absurd htask (not_pending_flushing task)), fun _ f _ => ?_⟩
    show (db.applyCompaction task).disk.files.get? f = _
    rw [hsame.2]

/-- A write takes no name and touches no table file. -/
theorem NamesTaken.storeRecord (h : NamesTaken calls events db) (clock : VectorClock) (usage : Nat)
    (key serialized : Bytes) :
    NamesTaken calls events ({ db with localClock := clock }.storeRecord usage key serialized) ∧
      ({ db with localClock := clock }.storeRecord usage key serialized).disk.files = db.disk.files := by
  have hlogged := h.logged.storeRecord clock usage key serialized
  unfold ZenithDB.storeRecord at hlogged ⊢
  by_cases hfull : usage > 2 * memtableLimit
  · rw [if_pos hfull] at hlogged ⊢
    exact ⟨⟨hlogged, h.taken, h.numbered, h.pending⟩, rfl⟩
  · rw [if_neg hfull] at hlogged ⊢
    exact ⟨⟨hlogged, h.taken, h.numbered, h.pending⟩, rfl⟩

/-- **One step** of the lives of a directory. -/
theorem NamesTaken.step {a : LifeAction} (h : NamesTaken calls events db)
    (hapart : Apart events db a) (hstep : lifeStep p db a = .ok db') :
    NamesTaken (calls ++ lifeCalls db a) (events ++ nameEvents db a) db' ∧
      ∀ l, ∀ f ∈ addedTo l calls, db'.disk.files.get? f = db.disk.files.get? f := by
  -- only the worker takes names and writes tables
  cases a with
  | reopen counter wal =>
    rw [lifeCalls, List.append_nil]
    -- opening writes no file
    refine ⟨h.openDB hstep, ?_⟩
    change ZenithDB.openDB p db.nodeId { db.disk with wal := wal } counter = .ok db' at hstep
    unfold ZenithDB.openDB at hstep
    obtain ⟨⟨layout, nextAddr⟩, -, hstep⟩ := Except.bind_eq_ok_iff.mp hstep
    obtain rfl := Except.ok.inj hstep
    exact fun _ _ _ => rfl
  | act a =>
    cases a with
    | put usage key value =>
      obtain rfl := Except.ok.inj hstep
      obtain ⟨hnext, hfiles⟩ := h.storeRecord (db.localRegister value).clock usage key
        (db.localRegister value).serialize
      rw [lifeCalls, manifestCalls, nameEvents, namings, List.map_nil, List.append_nil,
        List.append_nil]
      exact ⟨hnext, fun _ f _ => congrArg (·.get? f) hfiles⟩
    | putCrdt usage key incoming =>
      obtain ⟨existing, -, hstep⟩ := Except.bind_eq_ok_iff.mp hstep
      obtain rfl := Except.ok.inj hstep
      obtain ⟨hnext, hfiles⟩ := h.storeRecord (db.localClock.merge incoming.clock) usage key
        (resolve incoming existing).serialize
      rw [lifeCalls, manifestCalls, nameEvents, namings, List.map_nil, List.append_nil,
        List.append_nil]
      exact ⟨hnext, fun _ f _ => congrArg (·.get? f) hfiles⟩
    | otherNames n =>
      obtain rfl := Except.ok.inj hstep
      rw [lifeCalls, manifestCalls, nameEvents, namings, List.map_nil, List.append_nil,
        List.append_nil]
      refine ⟨?_, fun _ _ _ => rfl⟩
      -- numbers that other databases of the process take are passed over
      exact ⟨h.logged.frame rfl rfl h.logged.executing h.logged.applying, h.taken,
        fun m hm => Nat.lt_add_right n (h.numbered m hm), h.pending⟩
    | work time => exact h.work hapart hstep

/-- **A live table file is never overwritten**: in the lives of a directory, however often
it is opened and whatever happens in between, each step gives out no name that is listed,
gives none out twice, and leaves the bytes of all listed files as they are.

Hypotheses:
* `hapart` — no opening names a file for the level, the second and the number of an earlier
  one;
* `has`, `hbefore` — the step is any one of the run, and `t` the state before it.

And as long as no process takes 2^64 numbers, see `counter_run`: the code's counter then
starts again. -/
theorem live_files_kept {nodeId : NodeID} {counter : Nat} {as before after : List LifeAction}
    {a : LifeAction} {t : ZenithDB}
    (hapart : (nameSystem p).Along Apart [] (fresh nodeId counter) as)
    (has : as = before ++ a :: after)
    (hbefore : (nameSystem p).run (fresh nodeId counter) before = .ok t) : KeepsListed p t a := by
  subst has
  obtain ⟨calls, htaken⟩ := System.run_invariant
    (P := fun events db => ∃ calls, NamesTaken calls events db)
    (fun tr d a d' ⟨calls, h⟩ hcond hstep => ⟨calls ++ lifeCalls d a, (h.step hcond hstep).1⟩)
    ⟨[], namesTaken_fresh nodeId counter⟩ hapart.append_left hbefore
  have hstep := hapart.at_step hbefore
  obtain ⟨hids, hdistinct⟩ := namings_ids t a
  refine ⟨fun n hn hlisted => ?_, hdistinct, fun db' hdb' f hf => ?_⟩
  · obtain ⟨l, hl⟩ := htaken.logged.added_of_listed hlisted
    exact htaken.unlisted (hids n hn) (hstep n hn) l hl
  · obtain ⟨l, hl⟩ := htaken.logged.added_of_listed hf
    exact (htaken.step hstep hdb').2 l f hl

instance (events : List NameEvent) (db : ZenithDB) (a : LifeAction) : Decidable (Apart events db a) :=
  inferInstanceAs (Decidable (∀ n ∈ namings db a, n ∉ (nameLedger events).past))

/-- A flush in each of two processes, the second one a second later. -/
def twoProcesses (second : Nat) : List LifeAction :=
  [.act (.put 200000 [107] [118]), .act (.work fun _ => 5), .reopen 0 [],
    .act (.put 200000 [106] [119])] ++ [.act (.work fun _ => second)]

/-- The second process in the next second. -/
theorem live_files_kept_next_second :
    ∃ t, (nameSystem .stable).run (fresh [65] 0) ((twoProcesses 6).take 4) = .ok t ∧
      KeepsListed .stable t (.act (.work fun _ => 6)) := by
  obtain ⟨t, ht⟩ := Except.exists_eq_ok
    (x := (nameSystem .stable).run (fresh [65] 0) ((twoProcesses 6).take 4)) (by decide +kernel)
  have hapart : (nameSystem .stable).Along Apart [] (fresh [65] 0) (twoProcesses 6) := by
    decide +kernel
  exact ⟨t, ht, live_files_kept hapart rfl ht⟩

/-- Within the same second, the second process writes its file over the first one's:
the key in the listed file is gone. -/
theorem second_process_overwrites :
    ∃ t, (nameSystem .stable).run (fresh [65] 0) ((twoProcesses 5).take 4) = .ok t ∧
      t.levelsMeta.getD 0 [] = [newFilename 0 5 0] ∧
      namings t (.act (.work fun _ => 5)) = [⟨0, 5, 0⟩] ∧
      ∃ t', lifeStep .stable t (.act (.work fun _ => 5)) = .ok t' ∧
        t'.disk.files.get? (newFilename 0 5 0) ≠ t.disk.files.get? (newFilename 0 5 0) := by
  decide +kernel

end ZenithDB

end Zenith
