import Zenith.DB.Step

/-!
# Zenith — the manifest of a running database

Three copies say which files a level has: `levels_meta_`, the layout and the manifest.
Flushes and compactions log every file they add and every file they remove, but
`Manifest::load` replays additions only; a comment in the source says so. What a reopened
database lists for a level is therefore everything ever added to it: the files it had at
close and, again, the inputs of every compaction.

The manifest is read here as the list of calls that wrote it. `manifestCalls` gives the
calls of a step, and a run collects them in the trace of `manifestSystem`, so that an
invariant can speak of the calls so far: `Logged` says that the manifest is their bytes,
that each of them is well formed, and that no level lists a name that was not added to it. A
compaction that was planned but not applied has its own clause, because its task carries
names from one step to the next.

A flush and a compaction are taken apart into calls. `Logged.add` is what one addition
keeps, `Logged.flushNodes` the loop over frozen memtables, `Logged.applyCompaction` the
removal of the inputs.

No size and no clock occurs in these results: what the manifest says does not depend on what
is in the tables.

Main result: `manifest_recovery`.
-/

namespace Zenith

open Bytes

namespace Manifest

/-- The files of a level that the calls added and did not remove again. A load that honoured
deletions would list these. -/
def live (l : Nat) (calls : List Call) : List Bytes :=
  calls.foldl (fun files call =>
    match call with
    | .addSstable level filename => if level = l then files ++ [filename] else files
    | .replace level oldFiles newFiles =>
      if level = l then files.filter (fun f => !oldFiles.contains f) ++ newFiles else files) []

end Manifest

namespace ZenithDB

-- ---------------------------------------------------------------------------
-- File names
-- ---------------------------------------------------------------------------

/-- The name of a new file is one word, so that a line of the manifest can be read back. -/
theorem noSpace_newFilename (level time id : Nat) : Manifest.NoSpace (newFilename level time id) := by
  have hdecimal : ∀ n, ∀ b ∈ Text.decimal n, Text.isSpace b = false := fun n b hb =>
    Text.not_isSpace_of_isDigit ((Text.decimal_spec n).2.1 b hb)
  intro b hb
  simp only [newFilename, List.mem_cons, List.mem_append, List.not_mem_nil, or_false] at hb
  rcases hb with rfl | hb | rfl | hb | rfl | hb | rfl | rfl | rfl | rfl
  all_goals first | rfl | exact hdecimal _ _ hb

/-- No file has an empty name. -/
theorem newFilename_ne_nil (level time id : Nat) : newFilename level time id ≠ [] :=
  List.cons_ne_nil _ _

/-- A file name determines its level, its second and its number. -/
theorem newFilename_inj {level level' time time' id id' : Nat}
    (h : newFilename level time id = newFilename level' time' id') :
    level = level' ∧ time = time' ∧ id = id' := by
  have hstop : ∀ (b : UInt8) (s : Bytes), Text.isDigit b = false →
      ∀ c ∈ (b :: s).head?, Text.isDigit c = false := by
    intro b s hb c hc
    rwa [← Option.some.inj hc]
  have hhead := (List.cons.inj h).2
  -- each part ends at the next underscore, the last one at the dot
  obtain ⟨rfl, htime⟩ := Text.decimal_append_inj (hstop 95 _ rfl) (hstop 95 _ rfl) hhead
  obtain ⟨rfl, hid⟩ := Text.decimal_append_inj (hstop 95 _ rfl) (hstop 95 _ rfl)
    (List.cons.inj htime).2
  obtain ⟨rfl, -⟩ := Text.decimal_append_inj (hstop 46 _ rfl) (hstop 46 _ rfl) (List.cons.inj hid).2
  exact ⟨rfl, rfl, rfl⟩

-- ---------------------------------------------------------------------------
-- The calls of a step
-- ---------------------------------------------------------------------------

/-- The calls of a flush, the first file with the number `counter`. -/
def flushCalls (time : Nat → Nat) : Nat → List ImmNode → List Manifest.Call
  | _, [] => []
  | counter, node :: rest =>
    if node.flushed = true ∨ node.mt.sortedEntries = [] then flushCalls time counter rest
    else .addSstable 0 (newFilename 0 (time counter) counter) :: flushCalls time (counter + 1) rest

/-- The calls of `apply_compaction`. -/
def compactionCalls (task : CompactionTask) : List Manifest.Call :=
  (if task.outputSst.isSome then [.addSstable (task.level + 1) task.outputFilename] else []) ++
    [.replace task.level task.inputFilenames []]

/-- The calls that a step makes to the manifest. -/
def manifestCalls (db : ZenithDB) : Action → List Manifest.Call
  | .work time =>
    match db.worker with
    | .flushing => if db.immut.all (·.flushed) then [] else flushCalls time db.counter db.immut
    | .planning => []
    | .executing _ => []
    | .applying task => compactionCalls task
  | .put _ _ _ => []
  | .putCrdt _ _ _ => []
  | .otherNames _ => []

/-- Databases as a step system whose trace lists the calls to the manifest. -/
def manifestSystem (p : Platform) : System ZenithDB Action Manifest.Call Fault :=
  ⟨step p, manifestCalls⟩

/-- The records of a compaction are those of its calls. -/
theorem compactionRecords_eq (task : CompactionTask) :
    compactionRecords task = (compactionCalls task).flatMap Manifest.Call.append := by
  unfold compactionRecords compactionCalls
  split <;> simp [Manifest.Call.append]

-- ---------------------------------------------------------------------------
-- The invariant
-- ---------------------------------------------------------------------------

/-- The names that the calls added to a level. -/
def addedTo (l : Nat) (calls : List Manifest.Call) : List Bytes :=
  calls.flatMap (Manifest.Call.added l)

/-- A compaction that has been planned and not yet applied. -/
def Pending (worker : Worker) (task : CompactionTask) : Prop :=
  worker = .executing task ∨ worker = .applying task

/-- A compaction between two levels that exist, of files that were added. -/
structure TaskLogged (calls : List Manifest.Call) (task : CompactionTask) : Prop where
  level_lt : task.level + 1 < Manifest.levelCount
  output : Manifest.NoSpace task.outputFilename ∧ task.outputFilename ≠ []
  inputs : ∀ f ∈ task.inputFilenames, f ∈ addedTo task.level calls

/-- How a database stands to the calls it made to its manifest. -/
structure Logged (calls : List Manifest.Call) (db : ZenithDB) : Prop where
  manifest : db.disk.manifest = calls.flatMap Manifest.Call.append
  wellFormed : ∀ c ∈ calls, c.WellFormed
  levelCount : db.levelsMeta.length = Manifest.levelCount
  levels : ∀ l, (db.levelsMeta.getD l []).Sublist (addedTo l calls)
  removed : ∀ l oldFiles newFiles, Manifest.Call.replace l oldFiles newFiles ∈ calls →
    ∀ f ∈ oldFiles, f ∈ addedTo l calls
  executing : ∀ task, db.worker = .executing task → TaskLogged calls task
  applying : ∀ task, db.worker = .applying task → TaskLogged calls task

variable {calls : List Manifest.Call} {db : ZenithDB}

theorem addedTo_append (l : Nat) (calls more : List Manifest.Call) :
    addedTo l (calls ++ more) = addedTo l calls ++ addedTo l more :=
  List.flatMap_append

theorem TaskLogged.append {task : CompactionTask} (h : TaskLogged calls task)
    (more : List Manifest.Call) : TaskLogged (calls ++ more) task := by
  refine ⟨h.level_lt, h.output, ?_⟩
  intro f hf
  rw [addedTo_append]
  exact List.mem_append_left _ (h.inputs f hf)

/-- Names that were added have no white space. -/
theorem noSpace_of_mem_addedTo (hcalls : ∀ c ∈ calls, c.WellFormed) {l : Nat} {f : Bytes}
    (hf : f ∈ addedTo l calls) : Manifest.NoSpace f := by
  obtain ⟨c, hc, hmem⟩ := List.mem_flatMap.mp hf
  have hwell := hcalls c hc
  cases c with
  | addSstable level filename =>
    rw [Manifest.Call.added] at hmem
    split at hmem
    · rw [List.mem_singleton.mp hmem]
      exact hwell.2
    · exact absurd hmem List.not_mem_nil
  | replace level oldFiles newFiles =>
    rw [Manifest.Call.added] at hmem
    split at hmem
    · exact hwell.2 f (List.mem_append_right _ (List.mem_of_mem_filter hmem))
    · exact absurd hmem List.not_mem_nil

/-- A fresh database has called nothing. -/
theorem logged_fresh (nodeId : NodeID) (counter : Nat) : Logged [] (fresh nodeId counter) where
  manifest := rfl
  wellFormed := fun c hc => absurd hc List.not_mem_nil
  levelCount := rfl
  levels l := by
    rw [show (fresh nodeId counter).levelsMeta = List.replicate 7 [] from rfl,
      List.getD_eq_getElem?_getD, List.getElem?_replicate]
    split <;> exact List.Sublist.refl _
  removed := fun _ _ _ h => absurd h List.not_mem_nil
  executing := fun _ h => absurd h (by simp [fresh])
  applying := fun _ h => absurd h (by simp [fresh])

-- ---------------------------------------------------------------------------
-- What one call changes
-- ---------------------------------------------------------------------------

/-- A name that a level gets is the name its call adds. -/
theorem sublist_add {levels : List (List Bytes)}
    (h : ∀ l, (levels.getD l []).Sublist (addedTo l calls)) (level : Nat) {filename : Bytes}
    (hne : filename ≠ []) (l : Nat) :
    ((levels.modify level (· ++ [filename])).getD l []).Sublist
      (addedTo l (calls ++ [.addSstable level filename])) := by
  rw [Levels.getD_modify, addedTo_append]
  split
  · next hlevel =>
    have hadded : addedTo l [.addSstable level filename] = [filename] := by
      simp [addedTo, Manifest.Call.added, hlevel.1, hne]
    rw [hadded]
    exact (h l).append (List.Sublist.refl _)
  · exact (h l).trans (List.sublist_append_left _ _)

/-- Nothing is added when names leave a level. -/
theorem sublist_remove {levels : List (List Bytes)}
    (h : ∀ l, (levels.getD l []).Sublist (addedTo l calls)) (level : Nat) (keep : Bytes → Bool)
    (l : Nat) :
    ((levels.modify level fun files => files.filter keep).getD l []).Sublist (addedTo l calls) := by
  rw [Levels.getD_modify]
  split
  · exact List.filter_sublist.trans (h l)
  · exact h l

/-- **A file is added**: logged, and listed in its level. -/
theorem Logged.add (h : Logged calls db) {level : Nat} {filename : Bytes}
    (hlevel : level < Manifest.levelCount) (hspace : Manifest.NoSpace filename)
    (hne : filename ≠ []) {db' : ZenithDB}
    (hmanifest : db'.disk.manifest = db.disk.manifest ++ Manifest.addSstable level filename)
    (hlevels : db'.levelsMeta = db.levelsMeta.modify level (· ++ [filename]))
    (hworker : db'.worker = db.worker) :
    Logged (calls ++ [.addSstable level filename]) db' where
  manifest := by
    rw [hmanifest, h.manifest, List.flatMap_append]
    simp [Manifest.Call.append]
  wellFormed := List.forall_mem_append.mpr ⟨h.wellFormed, by
    intro c hc
    rw [List.mem_singleton.mp hc]
    exact ⟨hlevel, hspace⟩⟩
  levelCount := by rw [hlevels, List.length_modify, h.levelCount]
  levels l := by
    rw [hlevels]
    exact sublist_add h.levels level hne l
  removed l oldFiles newFiles hcall f hf := by
    rw [addedTo_append]
    rcases List.mem_append.mp hcall with hcall | hcall
    · exact List.mem_append_left _ (h.removed l oldFiles newFiles hcall f hf)
    · exact absurd (List.mem_singleton.mp hcall) (by simp)
  executing task htask := (h.executing task (by rw [← hworker, htask])).append _
  applying task htask := (h.applying task (by rw [← hworker, htask])).append _

-- ---------------------------------------------------------------------------
-- Flushes
-- ---------------------------------------------------------------------------

/-- One frozen memtable. -/
theorem Logged.flushNode (h : Logged calls db) {time : Nat → Nat} {node : ImmNode} {db' : ZenithDB}
    (hflush : ZenithDB.flushNode time db node = .ok db') (rest : List ImmNode) :
    ∃ new, flushCalls time db.counter (node :: rest) = new ++ flushCalls time db'.counter rest ∧
      Logged (calls ++ new) db' ∧ db'.worker = db.worker := by
  rw [flushCalls]
  obtain ⟨hskip, rfl⟩ | ⟨hskip, file, opened, -, -, rfl⟩ := flushNode_cases hflush
  · rw [if_pos hskip]
    exact ⟨[], rfl, by rwa [List.append_nil], rfl⟩
  · rw [if_neg hskip]
    have hspace := noSpace_newFilename 0 (time db.counter) db.counter
    have hne := newFilename_ne_nil 0 (time db.counter) db.counter
    have hzero : 0 < Manifest.levelCount := by decide
    -- the entry is logged whether or not the file can be opened
    cases opened with
    | none => exact ⟨[_], rfl, h.add hzero hspace hne rfl rfl rfl, rfl⟩
    | some t => exact ⟨[_], rfl, h.add hzero hspace hne rfl rfl rfl, rfl⟩

/-- All frozen memtables, by induction on them. The counter moves on by one for each file. -/
theorem Logged.flushNodes {time : Nat → Nat} {nodes : List ImmNode} {db db' : ZenithDB}
    {calls : List Manifest.Call} (h : Logged calls db)
    (hflush : nodes.foldlM (ZenithDB.flushNode time) db = .ok db') :
    Logged (calls ++ flushCalls time db.counter nodes) db' ∧ db'.worker = db.worker := by
  induction nodes generalizing calls db with
  | nil =>
    obtain rfl := Except.ok.inj hflush
    rw [flushCalls, List.append_nil]
    exact ⟨h, rfl⟩
  | cons node nodes ih =>
    rw [List.foldlM_cons] at hflush
    obtain ⟨mid, hnode, hrest⟩ := Except.bind_eq_ok_iff.mp hflush
    obtain ⟨new, hcalls, hmid, hworker⟩ := h.flushNode hnode nodes
    obtain ⟨hlogged, hworker'⟩ := ih hmid hrest
    rw [hcalls, ← List.append_assoc]
    exact ⟨hlogged, hworker'.trans hworker⟩

-- ---------------------------------------------------------------------------
-- Compactions
-- ---------------------------------------------------------------------------

/-- The task that is planned merges files the level lists. -/
theorem Logged.planCompaction (h : Logged calls db) {time : Nat → Nat} {task : CompactionTask}
    (hplan : db.planCompaction time = some task) : TaskLogged calls task := by
  unfold ZenithDB.planCompaction at hplan
  obtain ⟨lvl, hlvl, rfl⟩ := Option.map_eq_some_iff.mp hplan
  have hlt : lvl < db.levelsMeta.length - 1 := by
    unfold fullLevel at hlvl
    exact List.mem_range.mp (List.mem_of_find?_eq_some hlvl)
  rw [h.levelCount] at hlt
  refine ⟨by show lvl + 1 < _; omega, ⟨noSpace_newFilename _ _ _, newFilename_ne_nil _ _ _⟩, ?_⟩
  intro f hf
  exact (h.levels lvl).subset hf

/-- **A compaction is applied**: its output is logged and listed, its inputs are
logged as removed and no longer listed. -/
theorem Logged.applyCompaction (h : Logged calls db) {task : CompactionTask}
    (htask : TaskLogged calls task) (worker : Worker)
    (hworker : worker = .flushing) (layout : Layout) :
    Logged (calls ++ compactionCalls task)
      { db.applyCompaction task with worker := worker, layout := layout } where
  manifest := by
    have hdisk : (db.applyCompaction task).disk.manifest =
        db.disk.manifest ++ compactionRecords task := by
      unfold ZenithDB.applyCompaction
      cases task.outputSst <;> rfl
    show (db.applyCompaction task).disk.manifest = _
    rw [hdisk, h.manifest, compactionRecords_eq, List.flatMap_append]
  wellFormed := by
    refine List.forall_mem_append.mpr ⟨h.wellFormed, ?_⟩
    have hlevel := htask.level_lt
    intro c hc
    unfold compactionCalls at hc
    -- one `ADD` for the output, if there is one, then one `REPLACE` for the inputs
    rcases List.mem_append.mp hc with hc | hc
    · split at hc
      · rw [List.mem_singleton.mp hc]
        exact ⟨hlevel, htask.output.1⟩
      · exact absurd hc List.not_mem_nil
    · rw [List.mem_singleton.mp hc]
      refine ⟨by omega, ?_⟩
      intro f hf
      rw [List.append_nil] at hf
      exact noSpace_of_mem_addedTo h.wellFormed (htask.inputs f hf)
  levelCount := by
    show (db.applyCompaction task).levelsMeta.length = _
    unfold ZenithDB.applyCompaction
    cases task.outputSst <;> simp [h.levelCount]
  levels l := by
    show ((db.applyCompaction task).levelsMeta.getD l []).Sublist _
    -- levels forget the inputs; logged names are never forgotten
    have hkept := sublist_remove h.levels task.level fun f => !task.inputFilenames.contains f
    unfold ZenithDB.applyCompaction compactionCalls
    cases task.outputSst with
    | none =>
      rw [addedTo_append]
      exact (hkept l).trans (List.sublist_append_left _ _)
    | some sst =>
      rw [← List.append_assoc, addedTo_append]
      exact (sublist_add hkept (task.level + 1) htask.output.2 l).trans
        (List.sublist_append_left _ _)
  -- a removed name was logged when it was added: by an earlier call, or before the compaction
  removed l oldFiles newFiles hcall f hf := by
    rw [addedTo_append]
    apply List.mem_append_left
    rcases List.mem_append.mp hcall with hcall | hcall
    · exact h.removed l oldFiles newFiles hcall f hf
    · unfold compactionCalls at hcall
      rcases List.mem_append.mp hcall with hcall | hcall
      · split at hcall
        · exact absurd (List.mem_singleton.mp hcall) (by simp)
        · exact absurd hcall List.not_mem_nil
      · obtain ⟨rfl, rfl, -⟩ := Manifest.Call.replace.inj (List.mem_singleton.mp hcall)
        exact htask.inputs f hf
  executing _ heq := absurd (hworker ▸ heq) (by simp)
  applying _ heq := absurd (hworker ▸ heq) (by simp)

/-- Executing a compaction logs nothing. -/
theorem executeCompaction_manifest {task task' : CompactionTask} {db' : ZenithDB}
    (h : db.executeCompaction task = .ok (db', task')) :
    db'.disk.manifest = db.disk.manifest ∧ db'.levelsMeta = db.levelsMeta ∧
      task'.level = task.level ∧ task'.inputFilenames = task.inputFilenames ∧
      task'.outputFilename = task.outputFilename := by
  obtain ⟨merged, -, ⟨rfl, rfl⟩ | ⟨file, opened, -, -, rfl, rfl⟩⟩ := executeCompaction_cases h
  · exact ⟨rfl, rfl, rfl, rfl, rfl⟩
  · cases opened with
    | none => exact ⟨rfl, rfl, rfl, rfl, rfl⟩
    | some t => exact ⟨rfl, rfl, rfl, rfl, rfl⟩

-- ---------------------------------------------------------------------------
-- Runs
-- ---------------------------------------------------------------------------

/-- A step that does not touch files and worker keeps the invariant. -/
theorem Logged.frame (h : Logged calls db) {db' : ZenithDB}
    (hmanifest : db'.disk.manifest = db.disk.manifest) (hlevels : db'.levelsMeta = db.levelsMeta)
    (hexecuting : ∀ task, db'.worker = .executing task → TaskLogged calls task)
    (happlying : ∀ task, db'.worker = .applying task → TaskLogged calls task) :
    Logged calls db' :=
  ⟨hmanifest.trans h.manifest, h.wellFormed, by rw [hlevels, h.levelCount],
    fun l => by rw [hlevels]; exact h.levels l, h.removed, hexecuting, happlying⟩

/-- A write does not touch the manifest. -/
theorem Logged.storeRecord (h : Logged calls db) (clock : VectorClock) (usage : Nat)
    (key serialized : Bytes) :
    Logged calls ({ db with localClock := clock }.storeRecord usage key serialized) := by
  unfold ZenithDB.storeRecord
  split <;> exact h.frame rfl rfl h.executing h.applying

/-- No compaction is under way. -/
theorem not_pending_flushing (task : CompactionTask) : ¬ Pending .flushing task := by
  rintro (htask | htask) <;> cases htask

/-- Nor is one while the worker looks for a full level. -/
theorem not_pending_planning (task : CompactionTask) : ¬ Pending .planning task := by
  rintro (htask | htask) <;> cases htask

/-- **One step of the worker** adds its calls to the log. -/
theorem Logged.work {p : Platform} {time : Nat → Nat} {db' : ZenithDB} (h : Logged calls db)
    (hwork : db.work p time = .ok db') : Logged (calls ++ manifestCalls db (.work time)) db' := by
  rw [manifestCalls]
  cases work_cases hwork with
  | rested hworker hall =>
    simp only [hworker]
    rw [if_pos hall, List.append_nil]
    exact h.frame rfl rfl (fun _ heq => absurd heq (by simp)) fun _ heq => absurd heq (by simp)
  | flushed hworker hall hlast =>
    simp only [hworker]
    -- flushing logs one `ADD` for each memtable written
    rw [if_neg hall]
    exact (h.flushNodes hlast).1.frame rfl rfl (fun _ heq => absurd heq (by simp))
      fun _ heq => absurd heq (by simp)
  | idle hworker hplan =>
    simp only [hworker]
    rw [List.append_nil]
    exact h.frame rfl rfl (fun _ heq => absurd heq (by simp)) fun _ heq => absurd heq (by simp)
  | planned hworker hplan =>
    simp only [hworker]
    rw [List.append_nil]
    refine h.frame rfl rfl ?_ fun _ heq => absurd heq (by simp)
    intro task' heq
    rw [← Worker.executing.inj heq]
    -- the inputs of the plan are logged names
    exact h.planCompaction hplan
  | executed hworker hexec =>
    simp only [hworker]
    rw [List.append_nil]
    obtain ⟨hmanifest, hlevels, hlevel, hinputs, houtput⟩ := executeCompaction_manifest hexec
    refine h.frame hmanifest hlevels (fun _ heq => absurd heq (by simp)) ?_
    intro task'' heq
    rw [← Worker.applying.inj heq]
    have htask := h.executing _ hworker
    exact ⟨hlevel ▸ htask.level_lt, houtput ▸ htask.output, hlevel ▸ hinputs ▸ htask.inputs⟩
  | applied hworker =>
    simp only [hworker]
    exact h.applyCompaction (h.applying _ hworker) .flushing rfl _

/-- **One step** adds its calls to the log. -/
theorem Logged.step {p : Platform} {a : Action} {db' : ZenithDB} (h : Logged calls db)
    (hstep : ZenithDB.step p db a = .ok db') : Logged (calls ++ manifestCalls db a) db' := by
  -- only the worker adds and removes files
  cases a with
  | put usage key value =>
    obtain rfl := Except.ok.inj hstep
    rw [manifestCalls, List.append_nil]
    exact h.storeRecord _ usage key _
  | putCrdt usage key incoming =>
    obtain ⟨existing, -, hstep⟩ := Except.bind_eq_ok_iff.mp hstep
    obtain rfl := Except.ok.inj hstep
    rw [manifestCalls, List.append_nil]
    exact h.storeRecord _ usage key _
  | otherNames n =>
    obtain rfl := Except.ok.inj hstep
    rw [manifestCalls, List.append_nil]
    exact h.frame rfl rfl h.executing h.applying
  | work time => exact h.work hstep

/-- Opening the directory would list every name ever added. -/
theorem Logged.loadedLevels (h : Logged calls db) (p : Platform) :
    loadedLevels p db.disk = (List.range 7).map fun l => addedTo l calls := by
  unfold ZenithDB.loadedLevels
  rw [Manifest.load_calls h.wellFormed (p.readChunks_ne _ _)
    (by rw [p.readChunks_flatten, h.manifest])]
  rfl

/-- The calls of a run explain its manifest. -/
theorem logged_run {p : Platform} {nodeId : NodeID} {counter : Nat} {as : List Action}
    {db : ZenithDB} (hrun : (system p).run (fresh nodeId counter) as = .ok db) :
    Logged ((manifestSystem p).trace (fresh nodeId counter) as) db := by
  have hinvariant := System.run_invariant (S := manifestSystem p) (P := Logged)
    (fun tr d a d' h _ hstep => h.step hstep) (logged_fresh nodeId counter) System.along_true hrun
  rwa [List.nil_append] at hinvariant

/-- **Manifest recovery.** `load` lists for each level every non-empty name ever added to
it, whatever the chunks in which the file is read. So a directory that is opened again after
a run lists for each level at least what it held at close, and in addition every input of a
compaction. All runs from a fresh database are meant; the calls of one are its trace. -/
theorem manifest_recovery (p : Platform) :
    (∀ calls : List Manifest.Call, (∀ c ∈ calls, c.WellFormed) → ∀ chunks : List Bytes,
        (∀ c ∈ chunks, c ≠ []) → chunks.flatten = calls.flatMap Manifest.Call.append →
        Manifest.load chunks = (List.range 7).map fun l => addedTo l calls) ∧
      ∀ (nodeId : NodeID) (counter : Nat) (as : List Action) (db : ZenithDB),
        (system p).run (fresh nodeId counter) as = .ok db →
        let calls := (manifestSystem p).trace (fresh nodeId counter) as
        loadedLevels p db.disk = ((List.range 7).map fun l => addedTo l calls) ∧
          (∀ l, (db.levelsMeta.getD l []).Sublist ((loadedLevels p db.disk).getD l [])) ∧
          ∀ l oldFiles newFiles, Manifest.Call.replace l oldFiles newFiles ∈ calls →
            ∀ f ∈ oldFiles, f ∈ (loadedLevels p db.disk).getD l [] := by
  refine ⟨fun calls hcalls chunks hchunks hlog => Manifest.load_calls hcalls hchunks hlog, ?_⟩
  intro nodeId counter as db hrun calls
  have hlogged : Logged calls db := logged_run hrun
  -- what a load gives is known from the calls alone
  have hload := hlogged.loadedLevels p
  -- beyond the seventh level nothing is listed and nothing was ever added
  have hget : ∀ l, (addedTo l calls).Sublist ((loadedLevels p db.disk).getD l []) := by
    intro l
    rw [hload, List.getD_eq_getElem?_getD, List.getElem?_map]
    by_cases hl : l < 7
    · rw [List.getElem?_range hl]
      exact List.Sublist.refl _
    · have hnil : addedTo l calls = [] := by
        unfold addedTo
        rw [List.flatMap_eq_nil_iff]
        intro c hc
        have hwell := hlogged.wellFormed c hc
        cases c with
        | addSstable level filename =>
          have : level < 7 := hwell.1
          rw [Manifest.Call.added, if_neg (by omega)]
        | replace level oldFiles newFiles =>
          have : level < 7 := hwell.1
          rw [Manifest.Call.added, if_neg (by omega)]
      rw [hnil]
      exact List.nil_sublist _
  refine ⟨hload, fun l => (hlogged.levels l).trans (hget l), ?_⟩
  intro l oldFiles newFiles hcall f hf
  exact (hget l).subset (hlogged.removed l oldFiles newFiles hcall f hf)

/-- Three flushes and a compaction of level 0. -/
def threeFlushes : List Action :=
  [.put 200000 [107] [118], .put 200000 [107] [119], .put 200000 [107] [120], .work fun _ => 5,
    .work fun _ => 5, .work fun _ => 5, .work fun _ => 5]

/-- Two calls, and the run of `threeFlushes`. -/
theorem manifest_recovery_three_flushes :
    Manifest.load [Manifest.addSstable 0 [97] ++ Manifest.replace 0 [[97]] [[98]]] =
        ((List.range 7).map fun l => addedTo l [.addSstable 0 [97], .replace 0 [[97]] [[98]]]) ∧
      ∃ db, (system .stable).run (fresh [65] 0) threeFlushes = .ok db ∧
        ∀ l, (db.levelsMeta.getD l []).Sublist ((loadedLevels .stable db.disk).getD l []) := by
  constructor
  · apply (manifest_recovery .stable).1 _ _ _ (by decide) (by decide +kernel)
    intro c hc
    simp only [List.mem_cons, List.not_mem_nil, or_false] at hc
    rcases hc with rfl | rfl
    · exact ⟨by decide, by unfold Manifest.NoSpace; decide +kernel⟩
    · exact ⟨by decide, by unfold Manifest.NoSpace; decide +kernel⟩
  · obtain ⟨db, hrun⟩ := Except.exists_eq_ok
      (x := (system .stable).run (fresh [65] 0) threeFlushes) (by decide +kernel)
    exact ⟨db, hrun, ((manifest_recovery .stable).2 [65] 0 threeFlushes db hrun).2.1⟩

/-- A name that was removed is loaded again, an empty name is not loaded, and
after a compaction of level 0 all three inputs come back. -/
theorem removed_files_come_back :
    Manifest.load [Manifest.addSstable 0 [97] ++ Manifest.replace 0 [[97]] []] ≠
        ((List.range 7).map fun l => Manifest.live l [.addSstable 0 [97], .replace 0 [[97]] []]) ∧
      Manifest.load [Manifest.addSstable 0 []] ≠
        ((List.range 7).map fun l => Manifest.live l [.addSstable 0 []]) ∧
      ∃ db, (system .stable).run (fresh [65] 0) threeFlushes = .ok db ∧
        db.levelsMeta.getD 0 [] = [] ∧
        (loadedLevels .stable db.disk).getD 0 [] =
          [newFilename 0 5 0, newFilename 0 5 1, newFilename 0 5 2] := by
  decide +kernel

end ZenithDB

end Zenith
