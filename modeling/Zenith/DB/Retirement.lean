import Zenith.DB.Compaction
import Zenith.DB.ManifestLog

/-!
# Zenith — what a compaction retires

A compaction task carries two lists: the names that `levels_meta_` lists for its level, and
the tables that the layout has there. A file whose table did not open is in the first list
only. The output has the rows of the tables, yet what `apply_compaction` removes and logs as
deleted are the names. It does so even when the output did not open and nothing takes the
place of the inputs.

Opening can fail for reasons outside of the program, so execution is modelled with a
parameter that says whether the output opens (`executeCompactionWith`). With `true` it is
`executeCompaction` itself.

`TakenOver` says what it means for rows to be safe: a table with their keys has been written
and opened, the next level of the layout has it, it is listed there, and the manifest has
the line that adds it in front of those that remove the inputs. `takenOver_iff` reduces this
to two facts about the execution, and the main result quantifies over all names that leave
the levels.

What each listed file was written for is a parameter as well, `rows`. A file of no rows can
be retired freely; any other needs both conditions.

Main result: `compaction_retires_safely` — the names removed are covered by the output
exactly when the output opened and every row of every listed file is read from some table of
the layout.
-/

namespace Zenith

open Bytes

namespace ZenithDB

/-- Opens the output, where opening may fail for reasons outside of the program.
The exception is swallowed. -/
def openOutput (opens : Bool) (file : Bytes) : Except Fault (Option SSTable) :=
  if opens then openWritten file else .ok none

/-- `executeCompaction` with that. The file is written and recorded before it is opened. -/
def executeCompactionWith (opens : Bool) (db : ZenithDB) (task : CompactionTask) :
    Except Fault (ZenithDB × CompactionTask) := do
  let merged ← task.inputSsts.foldlM compactTable SortedMap.empty
  if merged.toList = [] then return (db, task)
  let file ← SSTable.create merged.toList
  let db := db.recordOutput task.outputFilename file
  match ← openOutput opens file with
  | none => return (db, task)
  | some t =>
    return ({ db with nextAddr := db.nextAddr + 1 },
      { task with outputSst := some ⟨db.nextAddr, t⟩ })

/-- Where opening cannot fail this is the function of the model. -/
theorem executeCompactionWith_true (db : ZenithDB) (task : CompactionTask) :
    db.executeCompactionWith true task = db.executeCompaction task := rfl

/-- The output of a compaction has taken the place of some rows: it opened over a
file with their keys, the next level of the layout has it, and it is listed there
and logged as added. -/
def TakenOver (before : ZenithDB) (task : CompactionTask) (after : ZenithDB) (rows : List Entry) :
    Prop :=
  ∃ merged file sst rest,
    task.inputSsts.foldlM compactTable SortedMap.empty = .ok merged ∧
    SSTable.create merged.toList = .ok file ∧
    SSTable.openFile file = .ok sst.table ∧
    entryOf sst ∈ after.layout.getD (task.level + 1) [] ∧
    task.outputFilename ∈ after.levelsMeta.getD (task.level + 1) [] ∧
    after.disk.manifest = before.disk.manifest ++
      (Manifest.addSstable (task.level + 1) task.outputFilename ++ rest) ∧
    ∀ e ∈ rows, e.1 ∈ merged.keys

/-- What is known of the task that execution leaves to `apply_compaction`. -/
structure Executed (task task' : CompactionTask) : Prop where
  level : task'.level = task.level
  inputFilenames : task'.inputFilenames = task.inputFilenames
  inputSsts : task'.inputSsts = task.inputSsts
  outputFilename : task'.outputFilename = task.outputFilename
  output : ∀ sst, task'.outputSst = some sst → ∃ merged file,
    task.inputSsts.foldlM compactTable SortedMap.empty = .ok merged ∧
    SSTable.create merged.toList = .ok file ∧ SSTable.openFile file = .ok sst.table

variable {db db' mid mid' : ZenithDB} {task task' : CompactionTask} {opens : Bool}

/-- A planned task has no output yet; execution fills in that field only. -/
theorem executed (hnone : task.outputSst = none)
    (h : mid.executeCompactionWith opens task = .ok (mid', task')) : Executed task task' := by
  have hsame : Executed task task := ⟨rfl, rfl, rfl, rfl, fun sst hsst => by simp [hnone] at hsst⟩
  unfold executeCompactionWith at h
  obtain ⟨merged, hmerged, h⟩ := Except.bind_eq_ok_iff.mp h
  split at h
  · -- no rows: the task stays without output
    obtain ⟨-, rfl⟩ := Prod.mk.inj (Except.ok.inj h)
    exact hsame
  · obtain ⟨file, hfile, h⟩ := Except.bind_eq_ok_iff.mp h
    obtain ⟨opened, hopened, h⟩ := Except.bind_eq_ok_iff.mp h
    cases opened with
    | none =>
      -- the file is there, but nothing refers to it
      obtain ⟨-, rfl⟩ := Prod.mk.inj (Except.ok.inj h)
      exact hsame
    | some t =>
      obtain ⟨-, rfl⟩ := Prod.mk.inj (Except.ok.inj h)
      refine ⟨rfl, rfl, rfl, rfl, fun sst hsst => ⟨merged, file, hmerged, hfile, ?_⟩⟩
      obtain rfl := Option.some.inj hsst
      cases opens with
      | true => exact openFile_of_openWritten hopened
      | false => exact absurd (Except.ok.inj hopened) (by simp)

/-- Every name of a full level is in the task that compacts it. -/
theorem planCompaction_eq_some {time : Nat → Nat} (h : db.planCompaction time = some task) :
    task.level + 1 < db.levelsMeta.length ∧
      task.inputFilenames = db.levelsMeta.getD task.level [] ∧
      task.inputSsts = (db.layout.getD task.level []).map (·.sst) ∧ task.outputSst = none := by
  unfold planCompaction at h
  obtain ⟨lvl, hlvl, rfl⟩ := Option.map_eq_some_iff.mp h
  unfold fullLevel at hlvl
  have hlt := List.mem_range.mp (List.mem_of_find?_eq_some hlvl)
  exact ⟨by show lvl + 1 < _; omega, rfl, rfl, rfl⟩

/-- All names of the task leave the level. -/
theorem removed_of_applyCompaction (db : ZenithDB) {f : Bytes} (hf : f ∈ task.inputFilenames)
    (hlevel : task.level < db.levelsMeta.length) :
    f ∉ (db.applyCompaction task).levelsMeta.getD task.level [] := by
  have hfilter : (db.levelsMeta.modify task.level fun files =>
      files.filter fun f => !task.inputFilenames.contains f).getD task.level [] =
      (db.levelsMeta.getD task.level []).filter fun f => !task.inputFilenames.contains f := by
    rw [Levels.getD_modify, if_pos ⟨rfl, hlevel⟩]
  have hgone : f ∉ (db.levelsMeta.getD task.level []).filter
      fun f => !task.inputFilenames.contains f := by
    intro hmem
    simp [hf] at hmem
  unfold applyCompaction
  cases task.outputSst with
  | none =>
    show f ∉ List.getD _ _ _
    rw [hfilter]
    exact hgone
  | some sst =>
    -- the output goes to the next level
    show f ∉ List.getD _ _ _
    rw [Levels.getD_modify, if_neg (by omega), hfilter]
    exact hgone

/-- No name leaves another level. -/
theorem kept_of_applyCompaction {l : Nat} (hl : l ≠ task.level) {f : Bytes}
    (hf : f ∈ db.levelsMeta.getD l []) : f ∈ (db.applyCompaction task).levelsMeta.getD l [] := by
  have hkept : f ∈ (db.levelsMeta.modify task.level fun files =>
      files.filter fun f => !task.inputFilenames.contains f).getD l [] := by
    rwa [Levels.getD_modify, if_neg fun h => hl h.1.symm]
  unfold applyCompaction
  cases task.outputSst with
  | none => exact hkept
  | some sst =>
    dsimp only
    rw [Levels.getD_modify]
    split
    · exact List.mem_append_left _ hkept
    · exact hkept

/-- An output that opened joins the layout, the metadata and the manifest. -/
theorem added_of_applyCompaction (db : ZenithDB) {sst : TableRef} (hout : task.outputSst = some sst)
    (hlevel : task.level + 1 < db.levelsMeta.length) :
    entryOf sst ∈ (db.applyCompaction task).layout.getD (task.level + 1) [] ∧
      task.outputFilename ∈ (db.applyCompaction task).levelsMeta.getD (task.level + 1) [] ∧
      (db.applyCompaction task).disk.manifest = db.disk.manifest ++
        (Manifest.addSstable (task.level + 1) task.outputFilename ++
          Manifest.replace task.level task.inputFilenames []) := by
  unfold applyCompaction
  rw [hout]
  dsimp only
  refine ⟨?_, ?_, ?_⟩
  · rw [Levels.getD_modify, if_pos]
    · exact List.mem_append_right _ (List.mem_singleton_self _)
    · refine ⟨rfl, ?_⟩
      unfold grow
      rw [List.length_append, List.length_replicate]
      omega
  · rw [Levels.getD_modify, if_pos ⟨rfl, by rwa [List.length_modify]⟩]
    exact List.mem_append_right _ (List.mem_singleton_self _)
  · unfold compactionRecords
    rw [hout]
    rfl

/-- **When the output takes over.** It does for some rows exactly when it opened and
the scans of the inputs return the keys of all of them. -/
theorem takenOver_iff (hexec : Executed task task') (hlevel : task.level + 1 < db.levelsMeta.length)
    (rows : List Entry) :
    TakenOver db task (db.applyCompaction task') rows ↔
      task'.outputSst.isSome ∧ ∀ e ∈ rows, ∃ sst ∈ task.inputSsts, Read sst e.1 := by
  have hkeys : ∀ {merged : SortedMap Bytes Bytes},
      task.inputSsts.foldlM compactTable SortedMap.empty = .ok merged → ∀ key,
        key ∈ merged.keys ↔ ∃ sst ∈ task.inputSsts, Read sst key := by
    intro merged hmerged key
    have hempty : key ∉ (SortedMap.empty : SortedMap Bytes Bytes).keys := List.not_mem_nil
    rw [keys_compacted hmerged key, or_iff_left hempty]
  -- the keys of the output are those that the scans of its inputs return
  constructor
  · rintro ⟨merged, file, sst, rest, hmerged, hfile, hopen, hlayout, -, hmanifest, hrows⟩
    refine ⟨?_, fun e he => (hkeys hmerged e.1).mp (hrows e he)⟩
    by_contra hnone
    -- without an output only deletions are logged
    have hrecords : (db.applyCompaction task').disk.manifest = db.disk.manifest ++
        Manifest.replace task'.level task'.inputFilenames [] := by
      unfold applyCompaction compactionRecords
      rw [if_neg hnone, Option.not_isSome_iff_eq_none.mp hnone]
      rfl
    rw [hrecords] at hmanifest
    have hbytes := List.append_cancel_left hmanifest
    unfold Manifest.replace at hbytes
    rw [List.flatMap_nil, List.append_nil] at hbytes
    cases hfiles : task'.inputFilenames with
    | nil =>
      rw [hfiles] at hbytes
      exact absurd hbytes (by simp [Manifest.addSstable, Manifest.encodeRecord, Manifest.opAdd])
    | cons f files =>
      rw [hfiles, List.flatMap_cons] at hbytes
      exact absurd hbytes (by simp [Manifest.addSstable, Manifest.encodeRecord, Manifest.opAdd,
        Manifest.opDel])
  · rintro ⟨hsome, hread⟩
    obtain ⟨sst, hsst⟩ := Option.isSome_iff_exists.mp hsome
    obtain ⟨merged, file, hmerged, hfile, hopen⟩ := hexec.output sst hsst
    have hadded := added_of_applyCompaction db hsst (by rwa [hexec.level])
    rw [hexec.level, hexec.outputFilename, hexec.inputFilenames] at hadded
    exact ⟨merged, file, sst, _, hmerged, hfile, hopen, hadded.1, hadded.2.1, hadded.2.2,
      fun e he => (hkeys hmerged e.1).mpr (hread e he)⟩

/-- **No table is retired before its contents are safe** exactly when every listed file with
rows has all of them in tables of the layout, and the output opened. `rows` says what each
listed file was written for.

Hypotheses:
* `hplan` — the compaction was planned in the state `db`;
* `hexec` — it was executed in a later state `mid`, where the output may or may not open;
* `hsame` — it ends in the state `db'`, whose lists are still those of the plan.

Between the three states other writes may come, which change memtables and log. The
condition is on the state of the plan and on whether the output opened. -/
theorem compaction_retires_safely {time : Nat → Nat} (hplan : db.planCompaction time = some task)
    (hexec : mid.executeCompactionWith opens task = .ok (mid', task'))
    (hsame : db'.levelsMeta = db.levelsMeta) (rows : Bytes → List Entry) :
    (∀ l, ∀ f ∈ db'.levelsMeta.getD l [],
        f ∉ (db'.applyCompaction task').levelsMeta.getD l [] →
          rows f = [] ∨ TakenOver db' task (db'.applyCompaction task') (rows f)) ↔
      ∀ f ∈ db.levelsMeta.getD task.level [], rows f = [] ∨
        (task'.outputSst.isSome ∧
          ∀ e ∈ rows f, ∃ fe ∈ db.layout.getD task.level [], Read fe.sst e.1) := by
  obtain ⟨hlevel, hnames, htables, hnone⟩ := planCompaction_eq_some hplan
  have hexecuted := executed hnone hexec
  rw [← hsame] at hlevel
  -- being taken over is the same for all states in between: it depends on the plan and on the
  -- output
  have htaken : ∀ f, TakenOver db' task (db'.applyCompaction task') (rows f) ↔
      (task'.outputSst.isSome ∧
        ∀ e ∈ rows f, ∃ fe ∈ db.layout.getD task.level [], Read fe.sst e.1) := by
    intro f
    rw [takenOver_iff hexecuted hlevel, htables]
    simp only [List.mem_map, exists_exists_and_eq_and]
  constructor
  · intro h f hf
    rw [← hsame] at hf
    -- the inputs are exactly the names of the level
    have hgone := removed_of_applyCompaction db'
      (show f ∈ task'.inputFilenames by rwa [hexecuted.inputFilenames, hnames, ← hsame])
      (by rw [hexecuted.level]; omega)
    rw [hexecuted.level] at hgone
    rw [← htaken]
    exact h task.level f hf hgone
  -- a name of another level is not removed
  · intro h l f hf hgone
    by_cases hl : l = task.level
    · rw [hl, hsame] at hf
      rw [htaken]
      exact h f hf
    · exact absurd (kept_of_applyCompaction (by rwa [hexecuted.level]) hf) hgone

/-- Three flushed memtables, their compaction, and an output that opens. -/
theorem compaction_retires_safely_three_flushes :
    ∃ db, (system .stable).run (fresh [65] 0) (threeFlushes.take 4) = .ok db ∧
      ∃ task, db.planCompaction (fun _ => 5) = some task ∧
        ∃ r, db.executeCompactionWith true task = .ok r ∧
          ∀ f ∈ db.levelsMeta.getD 0 [], f ∉ (r.1.applyCompaction r.2).levelsMeta.getD 0 [] →
            TakenOver r.1 task (r.1.applyCompaction r.2) [([107], [])] := by
  have hrun : ∃ db, (system .stable).run (fresh [65] 0) (threeFlushes.take 4) = .ok db ∧
      ∃ task ∈ db.planCompaction fun _ => 5,
        task.level = 0 ∧
        ∃ r, db.executeCompactionWith true task = .ok r ∧
          r.1.levelsMeta = db.levelsMeta ∧ r.2.outputSst.isSome ∧ ∃ fe ∈ db.layout.getD 0 [], Read fe.sst [107] := by
    decide +kernel
  obtain ⟨db, hdb, task, hplan, hlevel, r, hexec, hsame, hsome, fe, hfe, hread⟩ := hrun
  refine ⟨db, hdb, task, hplan, r, hexec, ?_⟩
  intro f hf hgone
  have hsafe := (compaction_retires_safely hplan hexec hsame fun _ => [([107], [])]).mpr
  rw [hlevel] at hsafe
  have hcovered : ∀ e ∈ [(([107] : Bytes), ([] : Bytes))], ∃ fe ∈ db.layout.getD 0 [], Read fe.sst e.1 :=
    List.forall_mem_singleton.mpr ⟨fe, hfe, hread⟩
  rw [← hsame] at hf
  exact (hsafe (fun _ _ => .inr ⟨hsome, hcovered⟩) 0 f hf hgone).resolve_left (by simp)

/-- The same compaction with an output that does not open: three files with a row
each leave level 0 and are logged as deleted, and then no level lists a file or
has a table. -/
theorem compaction_retires_without_output :
    ∃ db, (system .stable).run (fresh [65] 0) (threeFlushes.take 4) = .ok db ∧
      ∃ task ∈ db.planCompaction fun _ => 5,
        ∃ r, db.executeCompactionWith false task = .ok r ∧
          (db.levelsMeta.getD 0 []).length = 3 ∧
          (∀ fe ∈ db.layout.getD 0 [], ∃ raw, fe.sst.table.get [107] = .ok raw ∧ raw.isSome) ∧
          (r.1.applyCompaction r.2).disk.manifest =
            db.disk.manifest ++ Manifest.replace 0 (db.levelsMeta.getD 0 []) [] ∧
          (r.1.applyCompaction r.2).levelsMeta = List.replicate 7 [] ∧
          (r.1.applyCompaction r.2).layout = List.replicate 7 [] := by
  decide +kernel

end ZenithDB

end Zenith
