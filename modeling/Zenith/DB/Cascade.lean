import Zenith.DB.ClockContinuity
import Zenith.DB.Retirement

/-!
# Zenith — the cascade of compactions

A compaction takes every name off a full level and lists at most one new name, on the next
level, which may fill that level in turn. A name counts as often as it is listed: after a
reload a level can list one file several times, and the compaction takes off all of its
occurrences.

Each round therefore lowers the number of listed names by two, whatever becomes of its
output: there may be no rows to write, the file may not open, or it opens and is listed.
Nothing but a merge that stops with a fault keeps the cascade from its end.

A round is written as one step (`compact`), and `work_compact` shows that it is four steps
of the worker when no memtable waits for its flush. Whether the output opens is a parameter
of the round: the source catches the exception of a failed open and goes on, so the number
of names has to go down in this case, too. The measure makes the bound on the number of
rounds explicit, half of the names that are listed, and with it the end of the cascade is no
matter of fairness.

The last level is never compacted, so nothing is said about its length. That there are at
least seven levels comes from the constructor, and no step adds or drops one.

## Results

* `listed_compact`    — one round, for every outcome.
* `Settled.compact`   — the one fault of a round over files of the program.
* `work_compact`      — four steps of the idle worker are one round.
* `cascade_ends`      — the end of the cascade, and what the levels list there.
-/

namespace Zenith

open Bytes

namespace ZenithDB

-- ---------------------------------------------------------------------------
-- Rounds
-- ---------------------------------------------------------------------------

/-- What a round meets outside of the database: the clock that names its output, and
whether the output opens. -/
structure Round where
  time : Nat → Nat
  opens : Bool

/-- Executes a task and applies it. -/
def carryOut (p : Platform) (opens : Bool) (db : ZenithDB) (task : CompactionTask) :
    Except Fault ZenithDB := do
  let (mid, task') ← db.executeCompactionWith opens task
  let db' := mid.applyCompaction task'
  return { db' with layout := sortAllLevels p db'.layout }

/-- One round of compaction. Without a full level nothing happens. -/
def compact (p : Platform) (db : ZenithDB) (r : Round) : Except Fault ZenithDB :=
  match db.planCompaction r.time with
  | none => .ok db
  | some task => { db with counter := db.counter + 1 }.carryOut p r.opens task

/-- Rounds as a step system. -/
def compactions (p : Platform) : System ZenithDB Round Unit Fault := ⟨compact p, fun _ _ => []⟩

/-- How many names the levels list, with repetitions. -/
def listed (db : ZenithDB) : Nat := db.levelsMeta.flatten.length

/-- Nothing is left to compact. -/
structure AtRest (db : ZenithDB) : Prop where
  plan : ∀ time, db.planCompaction time = none
  first : (db.levelsMeta.getD 0 []).length ≤ 2
  middle : ∀ l, 1 ≤ l → l + 1 < db.levelsMeta.length → (db.levelsMeta.getD l []).length ≤ 3

variable {p : Platform} {db db' mid : ZenithDB} {task task' : CompactionTask}

-- ---------------------------------------------------------------------------
-- One round
-- ---------------------------------------------------------------------------

/-- A round in which something is planned. The counter goes on because the output has taken
a name. -/
theorem compact_eq_carryOut {r : Round} (hplan : db.planCompaction r.time = some task) :
    db.compact p r = { db with counter := db.counter + 1 }.carryOut p r.opens task := by
  unfold compact
  rw [hplan]

/-- Only the merge can stop a round. -/
theorem executeCompactionWith_of_carryOut {opens : Bool} {fault : Fault}
    (h : db.carryOut p opens task = .error fault) :
    db.executeCompactionWith opens task = .error fault := by
  unfold carryOut at h
  cases hexec : db.executeCompactionWith opens task with
  | error f =>
    rw [hexec] at h
    rw [Except.error.inj h]
  | ok r =>
    rw [hexec] at h
    exact absurd h (by simp)

/-- What is planned is a level that is full. -/
theorem threshold_of_planCompaction {time : Nat → Nat} (h : db.planCompaction time = some task) :
    threshold task.level ≤ (db.levelsMeta.getD task.level []).length := by
  unfold planCompaction at h
  obtain ⟨lvl, hlvl, rfl⟩ := Option.map_eq_some_iff.mp h
  unfold fullLevel at hlvl
  have hfull := List.find?_some hlvl
  exact of_decide_eq_true hfull

/-- A level is full with three names or more, so a round takes off at least three. -/
theorem two_lt_threshold (lvl : Nat) : 2 < threshold lvl := by
  unfold threshold
  split <;> omega

/-- A merge leaves the levels and the worker alone. -/
theorem executeCompactionWith_frame {opens : Bool}
    (h : db.executeCompactionWith opens task = .ok (db', task')) :
    db'.levelsMeta = db.levelsMeta ∧ db'.worker = db.worker := by
  unfold executeCompactionWith at h
  obtain ⟨merged, -, h⟩ := Except.bind_eq_ok_iff.mp h
  split at h
  · obtain ⟨rfl, -⟩ := Prod.mk.inj (Except.ok.inj h)
    exact ⟨rfl, rfl⟩
  · obtain ⟨file, -, h⟩ := Except.bind_eq_ok_iff.mp h
    obtain ⟨opened, -, h⟩ := Except.bind_eq_ok_iff.mp h
    cases opened with
    | none =>
      obtain ⟨rfl, -⟩ := Prod.mk.inj (Except.ok.inj h)
      exact ⟨rfl, rfl⟩
    | some t =>
      obtain ⟨rfl, -⟩ := Prod.mk.inj (Except.ok.inj h)
      exact ⟨rfl, rfl⟩

/-- The level of the task is emptied and the next one may get the output. -/
theorem levelsMeta_applyCompaction
    (hnames : task.inputFilenames = db.levelsMeta.getD task.level []) :
    (db.applyCompaction task).levelsMeta = (db.levelsMeta.modify task.level fun _ => []) ∨
      (db.applyCompaction task).levelsMeta =
        (db.levelsMeta.modify task.level fun _ => []).modify (task.level + 1)
          (· ++ [task.outputFilename]) := by
  have hclear : (db.levelsMeta.modify task.level fun files =>
      files.filter fun f => !task.inputFilenames.contains f) =
      db.levelsMeta.modify task.level fun _ => [] := by
    apply Levels.modify_congr
    rw [List.filter_eq_nil_iff, hnames]
    intro f hf
    rw [List.contains_iff_mem.mpr hf]
    exact Bool.false_ne_true
  unfold applyCompaction
  cases task.outputSst with
  | none => exact .inl hclear
  | some sst => exact .inr (congrArg (List.modify · (task.level + 1) _) hclear)

/-- **One round.** Three names or more go and at most one comes. -/
theorem listed_applyCompaction {time : Nat → Nat} (hplan : db.planCompaction time = some task)
    (hsame : mid.levelsMeta = db.levelsMeta) (hlevel : task'.level = task.level)
    (hinputs : task'.inputFilenames = task.inputFilenames) :
    (mid.applyCompaction task').listed + 2 ≤ db.listed := by
  obtain ⟨hlt, hnames, -, -⟩ := planCompaction_eq_some hplan
  have hfull := threshold_of_planCompaction hplan
  have hthree := two_lt_threshold task.level
  have hgone := Levels.length_flatten_modify_nil db.levelsMeta task.level
  unfold listed
  have hnames' : task'.inputFilenames = mid.levelsMeta.getD task'.level [] := by
    rw [hinputs, hnames, hsame, hlevel]
  rcases levelsMeta_applyCompaction hnames' with hlevels | hlevels
  · rw [hlevels, hsame, hlevel]
    omega
  · rw [hlevels, hsame, hlevel, (Levels.flatten_modify_append
      (by rwa [List.length_modify]) task'.outputFilename).length_eq, List.length_cons]
    omega

/-- **One round** lowers the number of listed names by at least two, whatever its outcome. -/
theorem listed_compact {r : Round} (hplan : db.planCompaction r.time ≠ none)
    (h : db.compact p r = .ok db') : db'.listed + 2 ≤ db.listed := by
  obtain ⟨task, hplan⟩ := Option.ne_none_iff_exists'.mp hplan
  rw [compact_eq_carryOut hplan] at h
  obtain ⟨⟨mid, task'⟩, hexec, h⟩ := Except.bind_eq_ok_iff.mp h
  obtain rfl := Except.ok.inj h
  have hexecuted := executed (planCompaction_eq_some hplan).2.2.2 hexec
  exact listed_applyCompaction hplan (executeCompactionWith_frame hexec).1 hexecuted.level
    hexecuted.inputFilenames

/-- A merge over tables of the program. Its output holds what its inputs held, whether or
not it opens. -/
theorem Settled.executeCompactionWith {Q : Bytes → Bytes → Prop} (hQ : Mergeable Q)
    (h : Settled Q db) (opens : Bool)
    (htask : ∀ sst ∈ task.inputSsts ++ task.outputSst.toList, sst.table.Holds Q) :
    (db.executeCompactionWith opens task).Post
      (fun r => Settled Q r.1 ∧ ∀ sst ∈ r.2.inputSsts ++ r.2.outputSst.toList, sst.table.Holds Q)
      WriteFailed := by
  cases opens with
  | true => exact h.executeCompaction hQ htask
  | false =>
    obtain ⟨merged, hmerged, hrows⟩ :=
      compactTables_spec hQ fun sst hsst => htask sst (List.mem_append_left _ hsst)
    unfold ZenithDB.executeCompactionWith
    rw [hmerged, Except.ok_bind]
    split
    · exact ⟨h, htask⟩
    · apply Except.Post.bind (create_outcome merged.sorted hrows)
      intro file hfile
      refine ⟨⟨h.frozen, h.layout, h.worker, ?_⟩, htask⟩
      intro e he
      rcases SortedMap.mem_insertEntry he with rfl | hold
      · exact hfile
      · exact h.files e hold

/-- Over tables that hold what the program wrote, the only fault of a round is a failed
write. -/
theorem Settled.compact {Q : Bytes → Bytes → Prop} (hQ : Mergeable Q) (h : Settled Q db)
    (p : Platform) (r : Round) : (db.compact p r).Post (Settled Q) WriteFailed := by
  cases hplan : db.planCompaction r.time with
  | none =>
    unfold ZenithDB.compact
    rw [hplan]
    exact h
  | some task =>
    rw [compact_eq_carryOut hplan]
    have hcounter : Settled Q { db with counter := db.counter + 1 } :=
      ⟨h.frozen, h.layout, h.worker, h.files⟩
    apply Except.Post.bind (hcounter.executeCompactionWith hQ r.opens (h.planCompaction hplan))
    rintro ⟨mid, task'⟩ ⟨hmid, htask'⟩
    have happly := hmid.applyCompaction htask'
    exact ⟨happly.frozen, happly.layout.sort p, happly.worker, happly.files⟩

-- ---------------------------------------------------------------------------
-- Rest
-- ---------------------------------------------------------------------------

/-- Whether something is planned does not depend on the clock. -/
theorem planCompaction_ne_none {time : Nat → Nat} (h : db.planCompaction time ≠ none)
    (time' : Nat → Nat) : db.planCompaction time' ≠ none := by
  intro hnone
  exact h (Option.map_eq_none_iff.mpr (Option.map_eq_none_iff.mp hnone))

/-- No level but the last one is full. -/
theorem fullLevel_eq_none {levelsMeta : List (List Bytes)} (h : fullLevel levelsMeta = none)
    {l : Nat} (hl : l + 1 < levelsMeta.length) : (levelsMeta.getD l []).length < threshold l := by
  have hfree := List.find?_eq_none.mp h l (List.mem_range.mpr (by omega))
  rwa [decide_eq_true_eq, Nat.not_le] at hfree

/-- When nothing is planned, no level but the last is full. -/
theorem atRest_of_planCompaction {time : Nat → Nat} (hlevels : 1 < db.levelsMeta.length)
    (h : db.planCompaction time = none) : AtRest db := by
  have hfull : fullLevel db.levelsMeta = none := Option.map_eq_none_iff.mp h
  refine ⟨fun time' => Option.map_eq_none_iff.mpr hfull, ?_, ?_⟩
  · exact Nat.le_of_lt_succ (fullLevel_eq_none hfull hlevels)
  · intro l hl hlt
    have hfree := fullLevel_eq_none hfull hlt
    rw [threshold, if_neg (by omega)] at hfree
    exact Nat.le_of_lt_succ hfree

-- ---------------------------------------------------------------------------
-- The worker
-- ---------------------------------------------------------------------------

/-- A merge does not look at what the worker is doing. -/
theorem executeCompaction_worker (db : ZenithDB) (w : Worker) (task : CompactionTask) :
    { db with worker := w }.executeCompaction task =
      db.executeCompaction task >>= fun r => .ok ({ r.1 with worker := w }, r.2) := by
  unfold executeCompaction
  cases task.inputSsts.foldlM compactTable SortedMap.empty with
  | error f => rfl
  | ok merged =>
    rw [Except.ok_bind, Except.ok_bind]
    split
    · rfl
    · cases SSTable.create merged.toList with
      | error f => rfl
      | ok file =>
        cases hopened : openWritten file with
        | error f => simp [hopened]
        | ok opened => cases opened <;> simp [hopened, recordOutput]

theorem applyCompaction_worker (db : ZenithDB) (w : Worker) (task : CompactionTask) :
    { db with worker := w }.applyCompaction task = { db.applyCompaction task with worker := w } := by
  unfold applyCompaction
  cases task.outputSst <;> rfl

/-- The second half of a round: the worker goes back to where it was. -/
theorem work_carryOut (hidle : db.worker = .flushing) (merging applying : Nat → Nat) :
    (system p).run { db with worker := .executing task } [.work merging, .work applying] =
      db.carryOut p true task := by
  have hmerge := executeCompaction_worker db (.executing task) task
  -- the first call of the worker merges
  have hwork : (system p).step { db with worker := .executing task } (.work merging) =
      db.executeCompaction task >>= fun r => .ok { r.1 with worker := .applying r.2 } := by
    show { db with worker := Worker.executing task }.work p merging = _
    unfold work
    simp only
    rw [hmerge]
    cases db.executeCompaction task <;> rfl
  unfold carryOut
  rw [executeCompactionWith_true]
  -- a fault of the merge ends both sides
  cases hexec : db.executeCompaction task with
  | error f =>
    rw [hexec] at hwork
    exact System.run_cons_error hwork _
  | ok r =>
    rw [hexec] at hwork
    rw [System.run_cons_ok hwork]
    have hworker : (r.1.applyCompaction r.2).worker = .flushing := by
      rw [← executeCompactionWith_true] at hexec
      have hsame := (executeCompactionWith_frame hexec).2
      unfold applyCompaction
      cases r.2.outputSst <;> exact hsame.trans hidle
    -- the second one applies and sorts the levels
    have happly : (system p).step { r.1 with worker := .applying r.2 } (.work applying) =
        .ok { r.1.applyCompaction r.2 with
          layout := sortAllLevels p (r.1.applyCompaction r.2).layout } := by
      show { r.1 with worker := Worker.applying r.2 }.work p applying = _
      unfold work
      simp only
      rw [applyCompaction_worker, ← hworker]
    rw [System.run_cons_ok happly]
    rfl

/-- **Four steps** of the idle worker are one round, when no memtable waits for its
flush. -/
theorem work_compact {time : Nat → Nat} (hidle : db.worker = .flushing)
    (hflushed : db.immut.all (·.flushed) = true) (hplan : db.planCompaction time = some task)
    (before merging applying : Nat → Nat) :
    (system p).run db [.work before, .work time, .work merging, .work applying] =
      db.compact p ⟨time, true⟩ := by
  have hflush : (system p).step db (.work before) = .ok { db with worker := .planning } := by
    show db.work p before = _
    unfold work
    rw [hidle]
    unfold flush
    rw [if_pos hflushed]
    rfl
  have hplanned : (system p).step { db with worker := .planning } (.work time) =
      .ok { db with worker := .executing task, counter := db.counter + 1 } := by
    have hsame : { db with worker := .planning }.planCompaction time = some task := hplan
    show { db with worker := Worker.planning }.work p time = _
    unfold work
    simp only [hsame]
  rw [System.run_cons_ok hflush, System.run_cons_ok hplanned]
  have hcounted : { db with counter := db.counter + 1 }.worker = .flushing := hidle
  rw [compact_eq_carryOut hplan, ← work_carryOut hcounted merging applying]

-- ---------------------------------------------------------------------------
-- The number of levels
-- ---------------------------------------------------------------------------

theorem length_levelsMeta_flushNodes {time : Nat → Nat} {nodes : List ImmNode}
    (h : nodes.foldlM (flushNode time) db = .ok db') :
    db'.levelsMeta.length = db.levelsMeta.length := by
  induction nodes generalizing db with
  | nil => rw [← Except.ok.inj h]
  | cons node nodes ih =>
    rw [List.foldlM_cons] at h
    obtain ⟨mid, hnode, hrest⟩ := Except.bind_eq_ok_iff.mp h
    rw [ih hrest]
    rcases flushNode_cases hnode with ⟨-, rfl⟩ | ⟨-, file, opened, -, -, rfl⟩
    · rfl
    · cases opened <;> exact List.length_modify ..

theorem length_levelsMeta_applyCompaction (db : ZenithDB) (task : CompactionTask) :
    (db.applyCompaction task).levelsMeta.length = db.levelsMeta.length := by
  unfold applyCompaction
  cases task.outputSst with
  | none => exact List.length_modify ..
  | some sst => exact (List.length_modify ..).trans (List.length_modify ..)

/-- The worker never adds or drops a level. -/
theorem length_levelsMeta_work {time : Nat → Nat} (h : db.work p time = .ok db') :
    db'.levelsMeta.length = db.levelsMeta.length := by
  cases work_cases h with
  | rested hworker hall => rfl
  | flushed hworker hall hlast =>
    have hsame := length_levelsMeta_flushNodes hlast
    exact hsame
  | idle hworker hplan => rfl
  | planned hworker hplan => rfl
  | executed hworker hexec => exact congrArg List.length (executeCompaction_manifest hexec).2.1
  | @applied task hworker => exact length_levelsMeta_applyCompaction db task

/-- The constructor makes seven levels, or as many as the manifest names. -/
theorem length_levelsMeta_openDB {nodeId : NodeID} {disk : Disk} {counter : Nat}
    (h : openDB p nodeId disk counter = .ok db) : 7 ≤ db.levelsMeta.length := by
  obtain ⟨⟨layout, next⟩, -, h⟩ := Except.bind_eq_ok_iff.mp h
  rw [← Except.ok.inj h]
  show 7 ≤ (loadedLevels p disk).length
  unfold loadedLevels grow
  rw [List.length_append, List.length_replicate]
  omega

/-- A directory that was opened has seven levels or more at all times. -/
theorem length_levelsMeta_life {nodeId : NodeID} {disk : Disk} {counter : Nat}
    {as : List LifeAction} (hopen : openDB p nodeId disk counter = .ok db)
    (hlife : (lifeSystem p).run db as = .ok db') : 7 ≤ db'.levelsMeta.length := by
  refine System.run_invariant (S := lifeSystem p) (P := fun _ d => 7 ≤ d.levelsMeta.length)
    (fun _ d a d' hd _ hstep => ?_) (length_levelsMeta_openDB hopen) (l := []) System.along_true hlife
  -- an opening makes seven levels at least, and no other step takes one away
  cases a with
  | reopen counter wal => exact length_levelsMeta_openDB hstep
  | act a =>
    have hrecord : ∀ (clock : VectorClock) usage key raw,
        7 ≤ ({ d with localClock := clock }.storeRecord usage key raw).levelsMeta.length := by
      intro clock usage key raw
      unfold storeRecord
      split <;> exact hd
    cases a with
    | put usage key value =>
      rw [← Except.ok.inj hstep]
      exact hrecord _ usage key _
    | putCrdt usage key incoming =>
      obtain ⟨existing, -, hstep⟩ := Except.bind_eq_ok_iff.mp hstep
      rw [← Except.ok.inj hstep]
      exact hrecord _ usage key _
    | work time => exact (length_levelsMeta_work hstep).ge.trans' hd
    | otherNames n =>
      rw [← Except.ok.inj hstep]
      exact hd

-- ---------------------------------------------------------------------------
-- The end of the cascade
-- ---------------------------------------------------------------------------

/-- Rounds never add or drop a level. -/
theorem length_levelsMeta_compact {r : Round} (h : db.compact p r = .ok db') :
    db'.levelsMeta.length = db.levelsMeta.length := by
  cases hplan : db.planCompaction r.time with
  | none =>
    unfold compact at h
    rw [hplan] at h
    rw [← Except.ok.inj h]
  | some task =>
    rw [compact_eq_carryOut hplan] at h
    obtain ⟨⟨mid, task'⟩, hexec, h⟩ := Except.bind_eq_ok_iff.mp h
    rw [← Except.ok.inj h]
    exact (length_levelsMeta_applyCompaction mid task').trans
      (congrArg List.length (executeCompactionWith_frame hexec).1)

/-- **The cascade ends.** Opening a directory, flushing and compacting lead to seven
levels or more. From every database with as many, and on every schedule of rounds,
at most half as many rounds as there are listed names lead to rest, where level 0
lists at most 2 files and each of the levels after it, except for the last, at most
3. A round ends with its output opened, with an output that does not open, or
without rows; only the fault of a merge, which is none of these, stops the cascade
before its end. -/
theorem cascade_ends (p : Platform) :
    (∀ nodeId disk counter opened as db, openDB p nodeId disk counter = .ok opened →
      (lifeSystem p).run opened as = .ok db → 7 ≤ db.levelsMeta.length) ∧
    ∀ (db : ZenithDB) (rounds : Nat → Round), 7 ≤ db.levelsMeta.length →
      ∃ n db', 2 * n ≤ db.listed ∧ (compactions p).run db ((List.range n).map rounds) = .ok db' ∧
        (AtRest db' ∨ ∃ task fault, db'.planCompaction (rounds n).time = some task ∧
          { db' with counter := db'.counter + 1 }.executeCompactionWith (rounds n).opens task =
            .error fault) := by
  refine ⟨fun _ _ _ _ _ _ => length_levelsMeta_life, fun db rounds hlevels => ?_⟩
  have hstep : ∀ d r d', d.planCompaction (fun _ => 0) ≠ none →
      (compactions p).step d r = .ok d' → d'.listed + 2 ≤ d.listed := by
    intro d r d' hplan hround
    exact listed_compact (planCompaction_ne_none hplan r.time) hround
  obtain ⟨n, db', hn, hrun, hend⟩ := System.run_comes_to_rest (S := compactions p)
    (R := fun d => d.planCompaction (fun _ => 0) = none) two_pos hstep db rounds
  refine ⟨n, db', hn, hrun, ?_⟩
  by_cases hnone : db'.planCompaction (fun _ => 0) = none
  · -- the levels are still all there
    have hkept := System.run_invariant (S := compactions p)
      (P := fun _ d => 7 ≤ d.levelsMeta.length)
      (fun _ d r d' hd _ hround => (length_levelsMeta_compact hround).ge.trans' hd)
      hlevels (l := []) System.along_true hrun
    exact .inl (atRest_of_planCompaction (by omega) hnone)
  · obtain ⟨fault, hfault⟩ := hend.resolve_left hnone
    obtain ⟨task, hplan⟩ :=
      Option.ne_none_iff_exists'.mp (planCompaction_ne_none hnone (rounds n).time)
    refine .inr ⟨task, fault, hplan, ?_⟩
    change db'.compact p (rounds n) = _ at hfault
    rw [compact_eq_carryOut hplan] at hfault
    exact executeCompactionWith_of_carryOut hfault

/-- Three flushed memtables. One round leaves them merged on level 1. -/
theorem cascade_ends_three_flushes :
    ∃ db, (lifeSystem .stable).run (fresh [65] 0) ((threeFlushes.take 4).map .act) = .ok db ∧
      db.listed = 3 ∧ ∃ n db', 2 * n ≤ db.listed ∧
        (compactions .stable).run db ((List.range n).map fun _ => ⟨fun _ => 5, true⟩) = .ok db' ∧
        (AtRest db' ∨ ∃ task fault, db'.planCompaction (fun _ => 5) = some task ∧
          { db' with counter := db'.counter + 1 }.executeCompactionWith true task =
            .error fault) := by
  have hrun : ∃ db, (lifeSystem .stable).run (fresh [65] 0) ((threeFlushes.take 4).map .act) =
      .ok db ∧ db.listed = 3 := by
    decide +kernel
  obtain ⟨db, hrun, hlisted⟩ := hrun
  have hlevels := (cascade_ends .stable).1 [65] .empty 0 _ _ db (openDB_empty .stable [65] 0) hrun
  exact ⟨db, hrun, hlisted, (cascade_ends .stable).2 db (fun _ => ⟨fun _ => 5, true⟩) hlevels⟩

end ZenithDB

end Zenith
