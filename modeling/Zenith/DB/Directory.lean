import Zenith.DB.Crash
import Zenith.Storage.TornLog
import Zenith.Storage.TornManifest

/-!
# Zenith — a directory that outlives many crashes

`crash_recovery` is about one crash. The torn lines that it leaves in the log and in the
manifest are never removed, and the next process writes on behind them; half a table may lie
under a name that is not listed. `Directory` says what remains true of such a directory
whatever the process is killed at: the log consists of lines and fragments of good records,
the manifest of lines and fragments of lines, and a table that a whole line adds is whole.
That is enough to open it again and again.

A fragment and the line behind it are one line to a reader. In the log it is split at bars,
and if it can be read at all it gives a record that was written; in the manifest it may list
a name that is made of a fragment and the operation behind it, which no file has, because
names end in `.sst` and no operation does. What survives is computed in
`Zenith.Storage.TornLog` and `Zenith.Storage.TornManifest`; here it is only used.

The predicate `Q` on rows is a parameter. It is the property that survives, and what is
opened has it again in all its rows.

Main results: `Directory.crashed` — any part of changes that the code may make leaves such a
directory — and `Directory.opens`, `Directory.rows`, by which opening it brings back nothing
but what was written.
-/

namespace Zenith

open Bytes VectorClock

-- ---------------------------------------------------------------------------
-- Directories
-- ---------------------------------------------------------------------------

section

variable {Q : Bytes → Bytes → Prop} {disk disk' : Disk} {op : DiskOp} {ops : List DiskOp}

open ZenithDB (Naming)

/-- What a directory is after any number of crashes. -/
structure Directory (Q : Bytes → Bytes → Prop) (disk : Disk) : Prop where
  log : ∃ calls : List Wal.AppendCall, disk.wal = Wal.log calls ∧
    ∀ c ∈ calls, Wal.Clean c.record ∧ Q c.record.1 c.record.2
  manifest : ∃ lines : List Manifest.LineCall, disk.manifest = Manifest.tornLog lines ∧
    ∀ c ∈ lines, c.WellFormed ∧ (c.adds = true → c.torn = none →
      ∃ file, disk.files.get? c.file = some file ∧ FileHolds Q file)
  names : ∀ f file, disk.files.get? f = some file → ∃ n : Naming, f = n.name

/-- A change that the code makes to a directory. A table is written under a new name, and
listed when it is there. -/
inductive Admissible (Q : Bytes → Bytes → Prop) (disk : Disk) : DiskOp → Prop
  | appendWal {key : Bytes} {reg : LWWRegister} (hclean : Wal.Clean (key, reg.serialize))
      (hrecord : Q key reg.serialize) :
      Admissible Q disk (.appendWal (Wal.encodeRecord (key, reg.serialize)))
  | writeFile (n : Naming) (content : Bytes) (hnew : disk.files.get? n.name = none) :
      Admissible Q disk (.writeFile n.name content)
  | appendManifest (adds : Bool) {level : Nat} {file : Bytes} (hlevel : level < Manifest.levelCount)
      (hspace : Manifest.NoSpace file)
      (hwhole : adds = true →
        ∃ content, disk.files.get? file = some content ∧ FileHolds Q content) :
      Admissible Q disk (.appendManifest (Manifest.encodeRecord
        (if adds then Manifest.opAdd else Manifest.opDel) level file))

/-- Changes each of which is one that the code makes where it is made. -/
inductive Permitted (Q : Bytes → Bytes → Prop) : List DiskOp → Disk → Prop
  | nil (disk : Disk) : Permitted Q [] disk
  | cons {op : DiskOp} {ops : List DiskOp} {disk : Disk} (h : Admissible Q disk op)
      (hrest : Permitted Q ops (op.apply disk)) : Permitted Q (op :: ops) disk

/-- A directory that no process has written to. -/
theorem directory_empty : Directory Q .empty where
  log := ⟨[], rfl, fun _ h => absurd h List.not_mem_nil⟩
  manifest := ⟨[], rfl, fun _ h => absurd h List.not_mem_nil⟩
  names f file h := absurd h (by simp [Disk.empty])

/-- A weaker predicate on rows. -/
theorem Directory.mono {Q' : Bytes → Bytes → Prop} (h : Directory Q disk)
    (hle : ∀ k raw, Q k raw → Q' k raw) : Directory Q' disk where
  log := by
    obtain ⟨calls, hwal, hcalls⟩ := h.log
    exact ⟨calls, hwal, fun c hc => ⟨(hcalls c hc).1, hle _ _ (hcalls c hc).2⟩⟩
  manifest := by
    obtain ⟨lines, hlog, hlines⟩ := h.manifest
    refine ⟨lines, hlog, fun c hc => ⟨(hlines c hc).1, fun hadds htorn => ?_⟩⟩
    obtain ⟨file, hfile, es, hcreate, hsorted, hrows⟩ := (hlines c hc).2 hadds htorn
    exact ⟨file, hfile, es, hcreate, hsorted, hrows.mono hle⟩
  names := h.names

/-- One more call at the end of the log. -/
theorem Directory.append (h : Directory Q disk) (c : Wal.AppendCall) (hclean : Wal.Clean c.record)
    (hrecord : Q c.record.1 c.record.2) :
    Directory Q { disk with wal := disk.wal ++ c.written } where
  log := by
    obtain ⟨calls, hwal, hcalls⟩ := h.log
    refine ⟨calls ++ [c], ?_, List.forall_mem_append.mpr
      ⟨hcalls, List.forall_mem_singleton.mpr ⟨hclean, hrecord⟩⟩⟩
    rw [Wal.log, List.flatMap_append, List.flatMap_singleton, hwal]
    rfl
  manifest := h.manifest
  names := h.names

/-- One more line at the end of the manifest. -/
theorem Directory.line (h : Directory Q disk) (c : Manifest.LineCall) (hc : c.WellFormed)
    (hwhole : c.adds = true → c.torn = none →
      ∃ file, disk.files.get? c.file = some file ∧ FileHolds Q file) :
    Directory Q { disk with manifest := disk.manifest ++ c.written } where
  log := h.log
  manifest := by
    obtain ⟨lines, hlog, hlines⟩ := h.manifest
    refine ⟨lines ++ [c], ?_, List.forall_mem_append.mpr
      ⟨hlines, List.forall_mem_singleton.mpr ⟨hc, hwhole⟩⟩⟩
    rw [Manifest.tornLog, List.flatMap_append, List.flatMap_singleton, hlog]
    rfl
  names := h.names

/-- A new file, whole or in part. No line adds it. -/
theorem Directory.write (h : Directory Q disk) (n : Naming) (hnew : disk.files.get? n.name = none)
    (content : Bytes) : Directory Q { disk with files := disk.files.insert n.name content } where
  log := h.log
  manifest := by
    obtain ⟨lines, hlog, hlines⟩ := h.manifest
    refine ⟨lines, hlog, fun c hc => ⟨(hlines c hc).1, fun hadds htorn => ?_⟩⟩
    obtain ⟨file, hfile, hholds⟩ := (hlines c hc).2 hadds htorn
    refine ⟨file, ?_, hholds⟩
    show (disk.files.insert n.name content).get? c.file = some file
    rw [SortedMap.get?_insert, if_neg, hfile]
    -- a line of the manifest that adds this name would need a file that was there
    intro heq
    rw [heq, hnew] at hfile
    exact absurd hfile (by simp)
  names f file hf := by
    rw [SortedMap.get?_insert] at hf
    split at hf
    · next heq => exact ⟨n, heq⟩
    · exact h.names f file hf

/-- **One change**, and what a crash leaves of it. -/
theorem Directory.apply (h : Directory Q disk) (hop : Admissible Q disk op) :
    Directory Q (op.apply disk) ∧ ∀ n, Directory Q ((op.take n).apply disk) := by
  cases hop with
  | @appendWal key reg hclean hrecord =>
    have hwhole : Directory Q ((DiskOp.appendWal (Wal.encodeRecord (key, reg.serialize))).apply
        disk) := h.append ⟨key, reg, none, fun _ hn => absurd hn (by simp)⟩ hclean hrecord
    refine ⟨hwhole, fun n => ?_⟩
    rcases Nat.lt_or_ge n (Wal.encodeRecord (key, reg.serialize)).length with hlt | hge
    · exact h.append ⟨key, reg, some n, fun m hm => Option.some.inj hm ▸ hlt⟩ hclean hrecord
    · rwa [DiskOp.take, List.take_of_length_le hge]
  | writeFile n content hnew => exact ⟨h.write n hnew content, fun m => h.write n hnew _⟩
  | @appendManifest adds level file hlevel hspace hwhole =>
    have hline : Directory Q ((DiskOp.appendManifest (Manifest.encodeRecord
        (if adds then Manifest.opAdd else Manifest.opDel) level file)).apply disk) :=
      h.line ⟨adds, level, file, none⟩ ⟨hlevel, hspace⟩ fun hadds _ => hwhole hadds
    refine ⟨hline, fun n => ?_⟩
    -- the first bytes of the line, or the line with its newline
    set c : Manifest.LineCall := ⟨adds, level, file, some n⟩ with hc
    have hrecord : Manifest.encodeRecord (if adds then Manifest.opAdd else Manifest.opDel) level
        file = c.line ++ [Lines.newline] := rfl
    rw [hrecord] at hline ⊢
    rcases Nat.lt_or_ge c.line.length n with hlt | hge
    · rwa [DiskOp.take, List.take_of_length_le (by simp; omega)]
    · rw [DiskOp.take, List.take_append_of_le_length hge]
      exact h.line c ⟨hlevel, hspace⟩ fun _ htorn => absurd htorn (by simp [hc])

/-- All of the changes, one after the other. -/
theorem Directory.changes (h : Directory Q disk) (hops : Permitted Q ops disk) :
    Directory Q (ops.foldl DiskOp.apply disk) := by
  induction hops with
  | nil disk => exact h
  | cons hop _ ih => exact ih (h.apply hop).1

/-- **A crash in the middle of changes** that the code may make. -/
theorem Directory.crashed (h : Directory Q disk) (hops : Permitted Q ops disk)
    (hcrash : Crashed ops disk disk') : Directory Q disk' := by
  -- by induction on what was done before the kill
  induction hcrash with
  | before ops disk => exact h
  | within n =>
    cases hops with
    | cons hop _ => exact (h.apply hop).2 n
  | after _ ih =>
    cases hops with
    | cons hop hrest => exact ih (h.apply hop).1 hrest

end

namespace ZenithDB

variable {p : Platform} {Q : Bytes → Bytes → Prop} {disk : Disk}

/-- `.sst` is the end of no operation. -/
theorem endsInOp_name (n : Naming) : Manifest.endsInOp n.name = false := by
  have hsuffix : [116] <:+ n.name := by
    refine ⟨76 :: (Text.decimal n.level ++ 95 :: (Text.decimal n.second ++ 95 ::
      (Text.decimal n.id ++ [46, 115, 115]))), ?_⟩
    simp [Naming.name, newFilename]
  have hlast : n.name.getLast? = some 116 := by
    obtain ⟨a, ha⟩ := hsuffix
    rw [← ha, List.getLast?_append]
    rfl
  rw [Bool.eq_false_iff]
  intro hends
  simp only [Manifest.endsInOp, Bool.or_eq_true, List.isSuffixOf_iff_suffix] at hends
  rcases hends with ⟨a, ha⟩ | ⟨a, ha⟩
  · rw [← ha, List.getLast?_append] at hlast
    exact absurd hlast (by simp [Manifest.opAdd])
  · rw [← ha, List.getLast?_append] at hlast
    exact absurd hlast (by simp [Manifest.opDel])


/-- A listed name is one that `load` lists for some level. -/
theorem mem_loadedLevels {f : Bytes} (h : f ∈ (loadedLevels p disk).flatten) :
    ∃ l, f ∈ (Manifest.load (p.readChunks 4096 disk.manifest)).getD l [] := by
  obtain ⟨names, hnames, hf⟩ := List.mem_flatten.mp h
  rcases List.mem_append.mp hnames with hnames | hnames
  · obtain ⟨l, hl⟩ := List.mem_iff_getElem?.mp hnames
    exact ⟨l, by rwa [List.getD_eq_getElem?_getD, hl]⟩
  · rw [List.eq_of_mem_replicate hnames] at hf
    exact absurd hf List.not_mem_nil

end ZenithDB

section

variable {p : Platform} {Q : Bytes → Bytes → Prop} {disk : Disk}

open ZenithDB

/-- **What is listed and there is whole.** The names that come from a line behind a
fragment are not there. -/
theorem Directory.opens (h : Directory Q disk) (p : Platform) : Opens p Q disk := by
  intro f hf file hfile
  obtain ⟨lines, hlog, hlines⟩ := h.manifest
  obtain ⟨l, hl⟩ := mem_loadedLevels hf
  obtain ⟨n, rfl⟩ := h.names f file hfile
  have hne : n.name ≠ [] := newFilename_ne_nil _ _ _
  obtain ⟨c, hc, hadds, -, hname⟩ := (Manifest.mem_load_iff (fun c hc => (hlines c hc).1)
    (p.readChunks_ne 4096 disk.manifest) (by rw [p.readChunks_flatten, hlog]) hne
    (endsInOp_name n)).mp hl
  obtain ⟨before, after, hsplit, htorn, -⟩ := Manifest.mem_intact_iff.mp hc
  have hin : c ∈ lines := by
    rw [hsplit]
    exact List.mem_append_right before List.mem_cons_self
  obtain ⟨content, hcontent, hholds⟩ := (hlines c hin).2 hadds htorn
  rw [hname, hfile] at hcontent
  exact Option.some.inj hcontent ▸ hholds

/-- What the log brings back, key by key. -/
theorem replayLog_log {calls : List Wal.AppendCall} (hwal : disk.wal = Wal.log calls)
    (hclean : ∀ c ∈ calls, Wal.Clean c.record) (p : Platform) (key : Bytes) :
    (replayLog p disk).get key = History.last key (Wal.survivors false calls) := by
  have hreplayed : Wal.replayed (p.readChunks 8192 disk.wal) = Wal.survivors false calls :=
    Wal.replayed_log hclean (p.readChunks_ne _ _) (by rw [p.readChunks_flatten, hwal])
  rw [replayLog, Wal.replay_eq_replayed (p.readChunks_ne _ _), hreplayed, get_foldl_put,
    MemTable.get_new, Option.or_none]

/-- A record that is left was written whole. -/
theorem mem_of_survivor {calls : List Wal.AppendCall} {r : Entry}
    (hr : r ∈ Wal.survivors false calls) : ∃ c ∈ calls, c.record = r := by
  obtain ⟨c, hc, hrecord⟩ := List.mem_map.mp ((Wal.survivors_sublist false calls).subset hr)
  exact ⟨c, (List.mem_filter.mp hc).1, hrecord⟩

/-- **What the log brings back** was written to it. -/
theorem Directory.rows (h : Directory Q disk) (p : Platform) :
    Rows Q (replayLog p disk).sortedEntries := by
  obtain ⟨calls, hwal, hcalls⟩ := h.log
  rintro ⟨key, raw⟩ he
  have hget : (replayLog p disk).get key = some raw := SortedMap.get?_eq_some_iff.mpr he
  rw [replayLog_log hwal fun c hc => (hcalls c hc).1] at hget
  obtain ⟨c, hc, hrecord⟩ := mem_of_survivor (History.last_mem hget)
  have hhas := (hcalls c hc).2
  rwa [hrecord] at hhas

end

end Zenith
