import Zenith.Lib.Lines
import Zenith.Lib.Text

/-!
# Zenith — the manifest

`manifest.cpp` logs which table files belong to which level as text lines, `ADD level file`
and `DEL level file`. `load` replays the log in order, but only its ADD lines: a file that
was removed from a level is listed again.

A line is read with stream extraction: a word, a number, a word, each after any white space.
So what a line says depends on the names being free of white space (`NoSpace`), which
nothing checks, and on the level being one that there is; a level out of range is dropped
without an error. `Call.WellFormed` states both, and every call of the database meets it.

The same log is read twice here: by `loadLine` as the code does, and by `applyLine` as its
records say. The second is not in the source. It is there to show that the information is in
the file, and that it is the reader that does not use it.

Main results: `load_calls` — for every sequence of `add_sstable` and `replace` calls with
levels 0 to 6 and names without white space, `load` lists for each level every non-empty
name ever added to it, in order of addition — and `applyRecords_calls`, by which the log has
everything that a replay with removals would need.
-/

namespace Zenith

open Bytes

namespace Manifest

/-- `ADD` -/
def opAdd : Bytes := [65, 68, 68]

/-- `DEL` -/
def opDel : Bytes := [68, 69, 76]

/-- The line `op level file` with its newline. -/
def encodeRecord (op : Bytes) (level : Nat) (file : Bytes) : Bytes :=
  op ++ (32 :: (Text.decimal level ++ 32 :: file)) ++ [Lines.newline]

/-- What `add_sstable` appends. -/
def addSstable (level : Nat) (filename : Bytes) : Bytes := encodeRecord opAdd level filename

/-- What `replace` appends. -/
def replace (level : Nat) (oldFiles newFiles : List Bytes) : Bytes :=
  oldFiles.flatMap (encodeRecord opDel level) ++ newFiles.flatMap (encodeRecord opAdd level)

/-- The levels 0 to 6. -/
def levelCount : Nat := 7

/-- What `load` does with one line. -/
def loadLine (levels : List (List Bytes)) (line : Bytes) : List (List Bytes) :=
  if line = [] then levels
  else
    match Text.nextToken line with
    | none => levels
    | some (op, rest) =>
      match Text.readInt rest with
      | none => levels
      | some (lvl, rest) =>
        -- a DEL line is read this far and ignored
        if op = opAdd then
          match Text.nextToken rest with
          | none => levels
          | some (file, _) =>
            if 0 ≤ lvl ∧ lvl < levels.length then levels.modify lvl.toNat (· ++ [file]) else levels
        else levels

/-- Reads the manifest in the given chunks: the files of each level. -/
def load (chunks : List Bytes) : List (List Bytes) :=
  Lines.readAll loadLine (List.replicate levelCount []) [] chunks

-- ---------------------------------------------------------------------------
-- Calls
-- ---------------------------------------------------------------------------

/-- A call that changes the manifest. -/
inductive Call
  | addSstable (level : Nat) (filename : Bytes)
  | replace (level : Nat) (oldFiles newFiles : List Bytes)

/-- What the call appends to the file. -/
def Call.append : Call → Bytes
  | .addSstable level filename => Manifest.addSstable level filename
  | .replace level oldFiles newFiles => Manifest.replace level oldFiles newFiles

/-- A name without white space. -/
def NoSpace (file : Bytes) : Prop := ∀ b ∈ file, Text.isSpace b = false

/-- Levels 0 to 6 and names without white space. -/
def Call.WellFormed : Call → Prop
  | .addSstable level filename => level < levelCount ∧ NoSpace filename
  | .replace level oldFiles newFiles =>
    level < levelCount ∧ ∀ f ∈ oldFiles ++ newFiles, NoSpace f

/-- The names a call adds to a level, empty ones left out. -/
def Call.added (l : Nat) : Call → List Bytes
  | .addSstable level filename => if level = l ∧ filename ≠ [] then [filename] else []
  | .replace level _ newFiles => if level = l then newFiles.filter (fun f => decide (f ≠ [])) else []

-- ---------------------------------------------------------------------------
-- One line
-- ---------------------------------------------------------------------------

/-- The operations are words. -/
theorem noSpace_opAdd : NoSpace opAdd := by
  intro b hb
  simp only [opAdd, List.mem_cons, List.not_mem_nil, or_false] at hb
  rcases hb with rfl | rfl | rfl <;> rfl

/-- Both of them. -/
theorem noSpace_opDel : NoSpace opDel := by
  intro b hb
  simp only [opDel, List.mem_cons, List.not_mem_nil, or_false] at hb
  rcases hb with rfl | rfl | rfl <;> rfl

/-- A record is read back as far as its level, which is one digit. -/
theorem readRecord {op : Bytes} (file : Bytes) {level : Nat} (hop : op ≠ [])
    (hopSpace : NoSpace op) (hlevel : level < levelCount) :
    Text.nextToken (op ++ (32 :: (Text.decimal level ++ 32 :: file))) =
        some (op, 32 :: (Text.decimal level ++ 32 :: file)) ∧
      Text.readInt (32 :: (Text.decimal level ++ 32 :: file)) =
        some ((level : Int), 32 :: file) := by
  constructor
  · apply Text.nextToken_append hop hopSpace
    intro b hb
    obtain rfl : 32 = b := by simpa using hb
    rfl
  · apply Text.readInt_decimal
    · unfold levelCount at hlevel
      omega
    · intro b hb
      obtain rfl : 32 = b := by simpa using hb
      rfl

/-- `load` adds the name to its level, unless there is none to read. -/
theorem loadLine_add {levels : List (List Bytes)} {level : Nat} {file : Bytes}
    (hlen : levels.length = levelCount) (hlevel : level < levelCount) (hfile : NoSpace file) :
    loadLine levels (opAdd ++ (32 :: (Text.decimal level ++ 32 :: file))) =
      if file = [] then levels else levels.modify level (· ++ [file]) := by
  obtain ⟨htoken, hint⟩ := readRecord file (show opAdd ≠ [] by decide)
    noSpace_opAdd hlevel
  rw [loadLine, if_neg (by simp [opAdd]), htoken]
  simp only [hint, if_pos]
  rw [Text.nextToken_blank]
  -- with an empty name there is no third word
  by_cases hnil : file = []
  · rw [hnil, Text.nextToken_nil]
    rfl
  · have hread : Text.nextToken (file ++ []) = some (file, []) :=
      Text.nextToken_append hnil hfile (by simp)
    rw [List.append_nil] at hread
    rw [hread, if_neg hnil]
    simp only
    rw [if_pos (by rw [hlen]; omega), Int.toNat_natCast]

/-- `load` ignores what `replace` removes. -/
theorem loadLine_del {levels : List (List Bytes)} {level : Nat} {file : Bytes}
    (hlevel : level < levelCount) :
    loadLine levels (opDel ++ (32 :: (Text.decimal level ++ 32 :: file))) = levels := by
  obtain ⟨htoken, hint⟩ := readRecord file (show opDel ≠ [] by decide)
    noSpace_opDel hlevel
  rw [loadLine, if_neg (by simp [opDel]), htoken]
  simp only [hint]
  rw [if_neg (by decide)]

-- ---------------------------------------------------------------------------
-- Whole logs
-- ---------------------------------------------------------------------------

/-- A record is one line. -/
theorem newline_not_mem_record {op file : Bytes} (level : Nat) (hop : NoSpace op)
    (hfile : NoSpace file) :
    Lines.newline ∉ op ++ (32 :: (Text.decimal level ++ 32 :: file)) := by
  have hspace : ∀ s : Bytes, NoSpace s → Lines.newline ∉ s := by
    intro s hs hmem
    exact absurd (hs _ hmem) (by decide)
  have hdecimal : Lines.newline ∉ Text.decimal level := by
    apply hspace
    intro b hb
    exact Text.not_isSpace_of_isDigit ((Text.decimal_spec level).2.1 b hb)
  rw [List.mem_append, List.mem_cons, List.mem_append, List.mem_cons]
  rintro (h | h | h | h | h)
  · exact hspace op hop h
  · exact absurd h (by decide)
  · exact hdecimal h
  · exact absurd h (by decide)
  · exact hspace file hfile h

/-- The first line of a log that begins with a record. -/
theorem completeLines_encodeRecord {op file : Bytes} {level : Nat} (hop : NoSpace op)
    (hfile : NoSpace file) (rest : Bytes) :
    Lines.completeLines (encodeRecord op level file ++ rest) =
      (op ++ (32 :: (Text.decimal level ++ 32 :: file))) :: Lines.completeLines rest := by
  have := Lines.completeLines_line (newline_not_mem_record level hop hfile) rest
  rw [encodeRecord, List.append_assoc]
  exact this

/-- Names added to a level. -/
def addTo (level : Nat) (levels : List (List Bytes)) (files : List Bytes) : List (List Bytes) :=
  levels.modify level (· ++ files.filter fun f => decide (f ≠ []))

/-- The ADD lines of one call. -/
theorem load_adds {level : Nat} (hlevel : level < levelCount) {files : List Bytes}
    (hfiles : ∀ f ∈ files, NoSpace f) (rest : Bytes) {levels : List (List Bytes)}
    (hlen : levels.length = levelCount) :
    (Lines.completeLines (files.flatMap (encodeRecord opAdd level) ++ rest)).foldl loadLine levels =
      (Lines.completeLines rest).foldl loadLine (addTo level levels files) := by
  -- by induction on the names
  induction files generalizing levels with
  | nil =>
    have hid : addTo level levels [] = levels := by
      apply List.ext_getElem?
      intro i
      rw [addTo, List.getElem?_modify]
      by_cases h : level = i <;> simp [h]
    rw [hid]
    rfl
  | cons f files ih =>
    obtain ⟨hf, hrest⟩ := List.forall_mem_cons.mp hfiles
    rw [List.flatMap_cons, List.append_assoc, completeLines_encodeRecord noSpace_opAdd hf,
      List.foldl_cons, loadLine_add hlen hlevel hf]
    by_cases hnil : f = []
    · rw [if_pos hnil, ih hrest hlen, addTo, addTo, List.filter_cons_of_neg (by simpa using hnil)]
    · rw [if_neg hnil, ih hrest (by rw [List.length_modify, hlen]), addTo, addTo,
        List.filter_cons_of_pos (by simpa using hnil), List.modify_modify_eq]
      congr 2
      funext fs
      simp

/-- Its DEL lines have no effect. -/
theorem load_dels {level : Nat} (hlevel : level < levelCount) {files : List Bytes}
    (hfiles : ∀ f ∈ files, NoSpace f) (rest : Bytes) (levels : List (List Bytes)) :
    (Lines.completeLines (files.flatMap (encodeRecord opDel level) ++ rest)).foldl loadLine levels =
      (Lines.completeLines rest).foldl loadLine levels := by
  induction files with
  | nil => rfl
  | cons f files ih =>
    obtain ⟨hf, hrest⟩ := List.forall_mem_cons.mp hfiles
    rw [List.flatMap_cons, List.append_assoc, completeLines_encodeRecord noSpace_opDel hf,
      List.foldl_cons, loadLine_del hlevel, ih hrest]

/-- What one call adds to the levels that `load` computes. -/
theorem load_call {call : Call} (hcall : call.WellFormed) (rest : Bytes)
    {levels : List (List Bytes)} (hlen : levels.length = levelCount) :
    (Lines.completeLines (call.append ++ rest)).foldl loadLine levels =
      (Lines.completeLines rest).foldl loadLine (levels.mapIdx fun l fs => fs ++ call.added l) := by
  -- adding to one level, written level by level
  have hmap : ∀ (level : Nat) (files : List Bytes),
      addTo level levels files = levels.mapIdx fun l fs =>
        fs ++ if level = l then files.filter (fun f => decide (f ≠ [])) else [] := by
    intro level files
    apply List.ext_getElem?
    intro i
    rw [addTo, List.getElem?_modify, List.getElem?_mapIdx]
    by_cases h : level = i <;> simp [h]
  -- a call adds one name, or takes old ones away and adds new ones
  cases call with
  | addSstable level filename =>
    obtain ⟨hlevel, hfile⟩ := hcall
    have hadd := load_adds hlevel (show ∀ f ∈ [filename], NoSpace f by simpa using hfile) rest hlen
    rw [List.flatMap_cons, List.flatMap_nil, List.append_nil] at hadd
    rw [Call.append, addSstable, hadd, hmap]
    congr 2
    funext l fs
    by_cases hl : level = l <;> by_cases hnil : filename = [] <;> simp [Call.added, hl, hnil]
  | replace level oldFiles newFiles =>
    obtain ⟨hlevel, hfiles⟩ := hcall
    rw [List.forall_mem_append] at hfiles
    rw [Call.append, replace, List.append_assoc, load_dels hlevel hfiles.1,
      load_adds hlevel hfiles.2 rest hlen, hmap]
    rfl

/-- **What a manifest lists.** For each level the non-empty names ever added to it, in order
of addition, whether or not they were removed later. The calls are well formed (`hcalls`:
levels 0 to 6, names without white space), and the file is read in any chunks that make up
what the calls appended. -/
theorem load_calls {calls : List Call} (hcalls : ∀ c ∈ calls, c.WellFormed)
    {chunks : List Bytes} (hchunks : ∀ c ∈ chunks, c ≠ [])
    (hlog : chunks.flatten = calls.flatMap Call.append) :
    load chunks = (List.range levelCount).map fun l => calls.flatMap (Call.added l) := by
  -- for any levels to begin with, by induction on the calls
  have hfold : ∀ levels : List (List Bytes), levels.length = levelCount →
      (Lines.completeLines (calls.flatMap Call.append)).foldl loadLine levels =
        levels.mapIdx fun l fs => fs ++ calls.flatMap (Call.added l) := by
    clear hlog
    induction calls with
    | nil =>
      intro levels _
      show levels = _
      apply List.ext_getElem?
      intro i
      simp
    | cons c calls ih =>
      intro levels hlen
      obtain ⟨hc, hrest⟩ := List.forall_mem_cons.mp hcalls
      rw [List.flatMap_cons, load_call hc _ hlen, ih hrest _ (by rw [List.length_mapIdx, hlen])]
      apply List.ext_getElem?
      intro i
      cases h : levels[i]? <;> simp [h]
  rw [load, Lines.readAll_eq hchunks, hlog, hfold _ List.length_replicate]
  apply List.ext_getElem?
  intro i
  by_cases hi : i < levelCount <;> simp [hi]

-- ---------------------------------------------------------------------------
-- Records with their removals
-- ---------------------------------------------------------------------------

/-- What a record says: a file joins a level or leaves it. `load` does the first only. -/
def applyLine (levels : List (List Bytes)) (line : Bytes) : List (List Bytes) :=
  match Text.nextToken line with
  | none => levels
  | some (op, rest) =>
    match Text.readInt rest with
    | none => levels
    | some (lvl, rest) =>
      match Text.nextToken rest with
      | none => levels
      | some (file, _) =>
        if op = opAdd then levels.modify lvl.toNat (· ++ [file])
        else if op = opDel then levels.modify lvl.toNat (·.filter fun f => decide (f ≠ file))
        else levels

/-- All records of a log, in order. -/
def applyRecords (content : Bytes) : List (List Bytes) :=
  (Lines.completeLines content).foldl applyLine (List.replicate levelCount [])

/-- What a call says. -/
def Call.applyTo (levels : List (List Bytes)) : Call → List (List Bytes)
  | .addSstable level filename => levels.modify level (· ++ [filename])
  | .replace level oldFiles newFiles =>
    levels.modify level fun files => files.filter (fun f => !oldFiles.contains f) ++ newFiles

/-- All names of a call. -/
def Call.names : Call → List Bytes
  | .addSstable _ filename => [filename]
  | .replace _ oldFiles newFiles => oldFiles ++ newFiles

/-- A record is applied as it says. -/
theorem applyLine_record {op file : Bytes} {level : Nat} (hop : op ≠ []) (hopSpace : NoSpace op)
    (hlevel : level < levelCount) (hfile : NoSpace file) (hne : file ≠ [])
    (levels : List (List Bytes)) :
    applyLine levels (op ++ (32 :: (Text.decimal level ++ 32 :: file))) =
      if op = opAdd then levels.modify level (· ++ [file])
      else if op = opDel then levels.modify level (·.filter fun f => decide (f ≠ file))
      else levels := by
  obtain ⟨htoken, hint⟩ := readRecord file hop hopSpace hlevel
  have hread : Text.nextToken (32 :: file) = some (file, []) := by
    rw [Text.nextToken_blank]
    simpa using Text.nextToken_append hne hfile (show ∀ b ∈ ([] : Bytes).head?, _ by simp)
  unfold applyLine
  simp only [htoken, hint, hread, Int.toNat_natCast]

/-- The ADD lines of one call, with its names. -/
theorem apply_adds {level : Nat} (hlevel : level < levelCount) {files : List Bytes}
    (hfiles : ∀ f ∈ files, NoSpace f ∧ f ≠ []) (rest : Bytes) (levels : List (List Bytes)) :
    (Lines.completeLines (files.flatMap (encodeRecord opAdd level) ++ rest)).foldl applyLine levels =
      (Lines.completeLines rest).foldl applyLine (levels.modify level (· ++ files)) := by
  induction files generalizing levels with
  | nil =>
    rw [show (fun fs : List Bytes => fs ++ []) = id from funext List.append_nil, List.modify_id]
    rfl
  | cons f files ih =>
    obtain ⟨hf, hrest⟩ := List.forall_mem_cons.mp hfiles
    rw [List.flatMap_cons, List.append_assoc, completeLines_encodeRecord noSpace_opAdd hf.1,
      List.foldl_cons, applyLine_record (by decide) noSpace_opAdd hlevel hf.1 hf.2, if_pos rfl,
      ih hrest, List.modify_modify_eq]
    congr 2
    funext fs
    simp

/-- Its DEL lines take the old names out. -/
theorem apply_dels {level : Nat} (hlevel : level < levelCount) {files : List Bytes}
    (hfiles : ∀ f ∈ files, NoSpace f ∧ f ≠ []) (rest : Bytes) (levels : List (List Bytes)) :
    (Lines.completeLines (files.flatMap (encodeRecord opDel level) ++ rest)).foldl applyLine levels =
      (Lines.completeLines rest).foldl applyLine
        (levels.modify level (·.filter fun f => !files.contains f)) := by
  induction files generalizing levels with
  | nil =>
    have hid : (fun fs : List Bytes => fs.filter fun f => !([] : List Bytes).contains f) = id :=
      funext fun fs => List.filter_eq_self.mpr fun f _ => rfl
    rw [hid, List.modify_id]
    rfl
  | cons f files ih =>
    obtain ⟨hf, hrest⟩ := List.forall_mem_cons.mp hfiles
    rw [List.flatMap_cons, List.append_assoc, completeLines_encodeRecord noSpace_opDel hf.1,
      List.foldl_cons, applyLine_record (by decide) noSpace_opDel hlevel hf.1 hf.2,
      if_neg (by decide), if_pos rfl, ih hrest, List.modify_modify_eq]
    congr 2
    funext fs
    simp [Bool.and_comm]

/-- **The records of calls** have the effect of the calls: applied with their removals, the
lines of a log whose calls are well formed (`hcalls`) and name no file by the empty name
(`hnames`) give the levels that the calls meant. -/
theorem applyRecords_calls {calls : List Call} (hcalls : ∀ c ∈ calls, c.WellFormed)
    (hnames : ∀ c ∈ calls, ∀ f ∈ c.names, f ≠ []) :
    applyRecords (calls.flatMap Call.append) =
      calls.foldl Call.applyTo (List.replicate levelCount []) := by
  unfold applyRecords
  -- for any levels to begin with
  generalize List.replicate levelCount ([] : List Bytes) = levels
  induction calls generalizing levels with
  | nil => rfl
  | cons c calls ih =>
    obtain ⟨hc, hrest⟩ := List.forall_mem_cons.mp hcalls
    obtain ⟨hn, hrestNames⟩ := List.forall_mem_cons.mp hnames
    rw [List.flatMap_cons, List.foldl_cons]
    cases c with
    | addSstable level filename =>
      have hfile := hn filename (List.mem_singleton_self _)
      have hadd := apply_adds hc.1 (show ∀ f ∈ [filename], NoSpace f ∧ f ≠ [] from
        List.forall_mem_singleton.mpr ⟨hc.2, hfile⟩) (calls.flatMap Call.append) levels
      rw [List.flatMap_singleton] at hadd
      rw [Call.append, addSstable, hadd, ih hrest hrestNames, Call.applyTo]
    | replace level oldFiles newFiles =>
      have hfiles : ∀ f ∈ oldFiles ++ newFiles, NoSpace f ∧ f ≠ [] := fun f hf => ⟨hc.2 f hf, hn f hf⟩
      obtain ⟨hold, hnew⟩ := List.forall_mem_append.mp hfiles
      rw [Call.append, replace, List.append_assoc, apply_dels hc.1 hold, apply_adds hc.1 hnew,
        ih hrest hrestNames, List.modify_modify_eq, Call.applyTo]
      rfl

end Manifest

end Zenith
