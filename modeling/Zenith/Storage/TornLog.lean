import Zenith.Crdt.Codec
import Zenith.Storage.Wal

/-!
# Zenith — torn appends

`PosixWritableFile::Append` writes in a loop and throws where `write` fails, which may be in
the middle of the line. The writer goes on, and its next line starts right behind the
fragment. Both are one line to `replay`, which skips it: a line with a fragment in front has
too many fields or no longer begins with `PUT`.

So a fragment costs the next record, and only that one. `survivors` lists what is left;
`replayed_log` shows that replay puts exactly these records, whatever the fragments are.

A call is modelled with how it ended (`AppendCall.torn`): it returned, or it threw with a
number of bytes written, which is less than the line has. Two fragments that follow each
other are one fragment to the next line, and a call that threw before it wrote anything
leaves none; the boolean of `survivors` is all there is to remember of them.

The records are those of the database, which writes a serialized register as the value. They
are clean, as in all that is said of the log: a key or a value with a framing byte is lost
for another reason.

Main result: `torn_append_iff`.
-/

namespace Zenith

open Bytes

namespace Wal

-- ---------------------------------------------------------------------------
-- The puts of a replay
-- ---------------------------------------------------------------------------

/-- The record that a line stands for; a delete is a put of the empty value. -/
def parseLine (line : Bytes) : Option (Bytes × Bytes) :=
  if line = [] then none
  else
    match split line bar with
    | [op, key, value] => if op = opPut then some (key, value) else none
    | [op, key] => if op = opDel then some (key, []) else none
    | _ => none

/-- A line is replayed as its record. -/
theorem replayLine_eq (mt : MemTable) (line : Bytes) :
    replayLine mt line = (parseLine line).toList.foldl (fun m r => m.put r.1 r.2) mt := by
  unfold replayLine parseLine
  split
  · rfl
  · generalize split line bar = parts
    match parts with
    | [] => rfl
    | [_] => rfl
    | [op, key] => by_cases hop : op = opDel <;> simp [hop, MemTable.remove]
    | [op, key, value] => by_cases hop : op = opPut <;> simp [hop]
    | _ :: _ :: _ :: _ :: _ => rfl

/-- The records that a replay puts into the memtable, in order. -/
def replayed (chunks : List Bytes) : List (Bytes × Bytes) :=
  Lines.readAll (fun rs line => rs ++ (parseLine line).toList) [] [] chunks

/-- They are the records of the complete lines. -/
theorem replayed_eq {chunks : List Bytes} (hne : ∀ c ∈ chunks, c ≠ []) :
    replayed chunks = (Lines.completeLines chunks.flatten).filterMap parseLine := by
  have hfold : ∀ (lines : List Bytes) (rs : List (Bytes × Bytes)),
      lines.foldl (fun rs line => rs ++ (parseLine line).toList) rs =
        rs ++ lines.filterMap parseLine := by
    intro lines
    induction lines with
    | nil => simp
    | cons line lines ih =>
      intro rs
      rw [List.foldl_cons, ih, List.filterMap_cons]
      cases parseLine line <;> simp
  rw [replayed, Lines.readAll_eq hne, hfold, List.nil_append]

/-- A replay is its puts, one after the other. -/
theorem replay_eq_replayed {chunks : List Bytes} (hne : ∀ c ∈ chunks, c ≠ []) (mt : MemTable) :
    replay mt chunks = (replayed chunks).foldl (fun m r => m.put r.1 r.2) mt := by
  rw [replay, Lines.readAll_eq hne, replayed_eq hne]
  generalize Lines.completeLines chunks.flatten = lines
  induction lines generalizing mt with
  | nil => rfl
  | cons line lines ih =>
    rw [List.foldl_cons, ih, replayLine_eq, List.filterMap_cons]
    cases parseLine line <;> rfl

-- ---------------------------------------------------------------------------
-- Calls of `append`
-- ---------------------------------------------------------------------------

/-- A call of `append` for a register, and how it ended: `torn` is `none` when it
returned, and the number of bytes written when it threw. -/
structure AppendCall where
  key : Bytes
  register : LWWRegister
  torn : Option Nat
  strict : ∀ n ∈ torn, n < (encodeRecord (key, register.serialize)).length

namespace AppendCall

/-- What it was called with. -/
def record (c : AppendCall) : Bytes × Bytes := (c.key, c.register.serialize)

/-- What the call adds to the file. -/
def written (c : AppendCall) : Bytes :=
  match c.torn with
  | none => encodeRecord c.record
  | some n => (encodeRecord c.record).take n

/-- The call returned. -/
def Succeeded (c : AppendCall) : Prop := c.torn = none

/-- The call failed and left a fragment. -/
def Tears (c : AppendCall) : Prop := ∃ n ∈ c.torn, n ≠ 0

instance (c : AppendCall) : Decidable c.Succeeded := inferInstanceAs (Decidable (c.torn = none))

instance (c : AppendCall) : Decidable c.Tears :=
  inferInstanceAs (Decidable (∃ n ∈ c.torn, n ≠ 0))

end AppendCall

/-- The log that the calls write. -/
def log (calls : List AppendCall) : Bytes := calls.flatMap AppendCall.written

/-- The records of the calls that returned. -/
def acknowledged (calls : List AppendCall) : List (Bytes × Bytes) :=
  (calls.filter fun c => decide c.Succeeded).map AppendCall.record

/-- The records that are left, `glued` telling whether a fragment stands in front of
the next line. -/
def survivors : Bool → List AppendCall → List (Bytes × Bytes)
  | _, [] => []
  | glued, c :: calls =>
    match c.torn with
    | none => if glued then survivors false calls else c.record :: survivors false calls
    | some n => survivors (glued || decide (n ≠ 0)) calls

-- ---------------------------------------------------------------------------
-- Lines with a fragment in front
-- ---------------------------------------------------------------------------

/-- The line of a put without its newline. -/
def putLine (r : Bytes × Bytes) : Bytes := opPut ++ bar :: (r.1 ++ bar :: r.2)

/-- A line without a fragment in front is read back. -/
theorem parseLine_putLine {r : Bytes × Bytes} (h : Clean r) (hne : r.2 ≠ []) :
    parseLine (putLine r) = some r := by
  rw [parseLine, if_neg (by simp [putLine, opPut]), putLine, split_record h.1 h.2 hne]
  exact if_pos rfl

/-- **A fragment hides the line behind it.** A closed field makes too many fields,
and with none closed the operation is no longer `PUT`. -/
theorem parseLine_glued {cur : Bytes} (hcur : cur ≠ []) {r : Bytes × Bytes} (h : Clean r)
    (hne : r.2 ≠ []) : parseLine (cur ++ putLine r) = none := by
  obtain ⟨closed, last, hfields, hopen⟩ := Lines.fieldsFrom_append_text bar [] cur
  have hsplit : split (cur ++ putLine r) bar = closed ++ [last ++ opPut, r.1, r.2] := by
    rw [split_bar, Lines.fields, hfields, putLine, Lines.fieldsFrom_append (by decide),
      Lines.fieldsFrom, if_pos rfl]
    show closed ++ (last ++ opPut) :: Lines.fields bar (r.1 ++ bar :: r.2) = _
    rw [Lines.fields_append h.1.2, Lines.fields_of_not_mem h.2.2 hne]
  rw [parseLine, if_neg (by simp [hcur]), hsplit]
  -- whether the fragment closes a field
  cases closed with
  | nil =>
    -- the fragment is in front of the operation
    have hop : last ++ opPut ≠ opPut := by
      rw [hopen rfl, List.nil_append]
      intro heq
      exact hcur (List.append_left_eq_self.mp heq)
    exact if_neg hop
  | cons first closed =>
    -- four fields or more
    cases closed with
    | nil => rfl
    | cons second closed =>
      cases closed with
      | nil => rfl
      | cons third closed => simp

/-- **What replay puts.** By induction on the calls, `cur` being the fragments in
front of the next line. -/
theorem filterMap_linesFrom_log {calls : List AppendCall} (hclean : ∀ c ∈ calls, Clean c.record)
    {cur : Bytes} (hcur : Lines.newline ∉ cur) :
    (Lines.linesFrom cur (log calls)).filterMap parseLine =
      survivors (decide (cur ≠ [])) calls := by
  induction calls generalizing cur with
  | nil => rfl
  | cons c calls ih =>
    obtain ⟨hc, hcalls⟩ := List.forall_mem_cons.mp hclean
    have hlog : log (c :: calls) = c.written ++ log calls := rfl
    have hbytes : encodeRecord c.record = putLine c.record ++ [Lines.newline] := rfl
    have hne : c.record.2 ≠ [] := c.register.serialize_ne_nil
    rw [hlog]
    -- a call that returned ends the line; one that threw makes the fragment longer
    cases htorn : c.torn with
    | none =>
      have hwritten : c.written = putLine c.record ++ [Lines.newline] := by
        rw [AppendCall.written, htorn, ← hbytes]
      have hlines := (Lines.linesFrom_line (newline_not_mem_record hc) cur (log calls)).1
      rw [hwritten, List.append_assoc]
      show List.filterMap parseLine
        (Lines.linesFrom cur (putLine c.record ++ Lines.newline :: log calls)) = _
      rw [show Lines.linesFrom cur (putLine c.record ++ Lines.newline :: log calls) =
        (cur ++ putLine c.record) :: Lines.linesFrom [] (log calls) from hlines,
        List.filterMap_cons, ih hcalls List.not_mem_nil, survivors, htorn]
      by_cases hnil : cur = []
      · simp [hnil, parseLine_putLine hc hne]
      · simp [hnil, parseLine_glued hnil hc hne]
    | some n =>
      have hlt : n < (encodeRecord c.record).length := c.strict n htorn
      -- a strict prefix of the line does not contain its newline
      have hwritten : c.written = (putLine c.record).take n := by
        rw [AppendCall.written, htorn]
        show (encodeRecord c.record).take n = _
        rw [hbytes, List.length_append] at hlt
        rw [hbytes, List.take_append_of_le_length (Nat.lt_succ_iff.mp hlt)]
      have hnot : Lines.newline ∉ (putLine c.record).take n := fun hmem =>
        newline_not_mem_record hc (List.mem_of_mem_take hmem)
      obtain ⟨hlines, htail⟩ := Lines.linesFrom_of_not_mem hnot cur
      have hnext : Lines.newline ∉ cur ++ (putLine c.record).take n := by
        rw [List.mem_append, not_or]
        exact ⟨hcur, hnot⟩
      have hglued : decide (cur ++ (putLine c.record).take n ≠ []) =
          (decide (cur ≠ []) || decide (n ≠ 0)) := by
        have hput : putLine c.record ≠ [] := by simp [putLine, opPut]
        rw [← Bool.decide_or, decide_eq_decide, ne_eq, List.append_eq_nil_iff,
          List.take_eq_nil_iff, not_and_or, not_or]
        exact or_congr Iff.rfl (and_iff_left hput)
      rw [hwritten, Lines.linesFrom_append, hlines, htail, List.nil_append, ih hcalls hnext,
        survivors, htorn, hglued]

/-- **Recovery from a torn log**: replay puts the survivors, once each and in order. -/
theorem replayed_log {calls : List AppendCall} (hclean : ∀ c ∈ calls, Clean c.record)
    {chunks : List Bytes} (hne : ∀ c ∈ chunks, c ≠ []) (hlog : chunks.flatten = log calls) :
    replayed chunks = survivors false calls := by
  rw [replayed_eq hne, hlog]
  exact filterMap_linesFrom_log hclean List.not_mem_nil

-- ---------------------------------------------------------------------------
-- When every acknowledged record is recovered
-- ---------------------------------------------------------------------------

/-- Nothing survives that was not acknowledged. -/
theorem survivors_sublist (glued : Bool) (calls : List AppendCall) :
    (survivors glued calls).Sublist (acknowledged calls) := by
  induction calls generalizing glued with
  | nil => exact List.Sublist.slnil
  | cons c calls ih =>
    rw [survivors]
    cases htorn : c.torn with
    | none =>
      have hack : acknowledged (c :: calls) = c.record :: acknowledged calls := by
        simp [acknowledged, AppendCall.Succeeded, htorn]
      rw [hack]
      cases glued with
      | false => exact (ih false).cons_cons c.record
      | true => exact (ih false).cons c.record
    | some n =>
      have hack : acknowledged (c :: calls) = acknowledged calls := by
        simp [acknowledged, AppendCall.Succeeded, htorn]
      rw [hack]
      exact ih _

/-- All that was acknowledged survives if and only if no fragment stands in front of a line. -/
theorem acknowledged_sublist_iff (glued : Bool) (calls : List AppendCall) :
    (acknowledged calls).Sublist (survivors glued calls) ↔
      (glued = true → ∀ c ∈ calls, ¬ c.Succeeded) ∧
        calls.Pairwise fun c d => c.Tears → ¬ d.Succeeded := by
  induction calls generalizing glued with
  | nil => simp [acknowledged, survivors]
  | cons c calls ih =>
    rw [survivors, List.pairwise_cons, List.forall_mem_cons]
    -- as in `survivors`
    cases htorn : c.torn with
    | none =>
      have hack : acknowledged (c :: calls) = c.record :: acknowledged calls := by
        simp [acknowledged, AppendCall.Succeeded, htorn]
      have hsucc : c.Succeeded := htorn
      have htears : ¬ c.Tears := by simp [AppendCall.Tears, htorn]
      rw [hack]
      cases glued with
      | false =>
        have := ih false
        simp only [Bool.false_eq_true, false_implies, true_and] at this
        simp only [Bool.false_eq_true, if_false, false_implies, true_and, List.cons_sublist_cons,
          this, htears, implies_true]
      | true =>
        -- the record behind the fragment is gone, so there are too few left
        refine ⟨fun h => ?_, fun h => absurd hsucc (h.1 rfl).1⟩
        have hle := (h.length_le).trans (survivors_sublist false calls).length_le
        rw [List.length_cons] at hle
        omega
    | some n =>
      have hack : acknowledged (c :: calls) = acknowledged calls := by
        simp [acknowledged, AppendCall.Succeeded, htorn]
      have hsucc : ¬ c.Succeeded := by simp [AppendCall.Succeeded, htorn]
      have htears : c.Tears ↔ n ≠ 0 := by simp [AppendCall.Tears, htorn]
      rw [hack, ih, Bool.or_eq_true, decide_eq_true_eq, htears]
      constructor
      · rintro ⟨hnone, hpair⟩
        exact ⟨fun hg => ⟨hsucc, hnone (.inl hg)⟩, fun d hd hn => hnone (.inr hn) d hd, hpair⟩
      · rintro ⟨hg, hn, hpair⟩
        refine ⟨fun h d hd => ?_, hpair⟩
        rcases h with h | h
        · exact (hg h).2 d hd
        · exact hn d hd h

/-- **Torn appends.** Replay puts records one by one, and every record whose append returned
is among them exactly when no append returned after one that threw in the middle of its
line.

The records are clean (`hclean`), and the file is read in any chunks (`hne`) that make up
what the calls wrote, whole or torn (`hlog`). -/
theorem torn_append_iff {calls : List AppendCall} (hclean : ∀ c ∈ calls, Clean c.record)
    {chunks : List Bytes} (hne : ∀ c ∈ chunks, c ≠ []) (hlog : chunks.flatten = log calls) :
    (∀ mt, replay mt chunks = (replayed chunks).foldl (fun m r => m.put r.1 r.2) mt) ∧
      ((acknowledged calls).Sublist (replayed chunks) ↔
        calls.Pairwise fun c d => c.Tears → ¬ d.Succeeded) := by
  refine ⟨replay_eq_replayed hne, ?_⟩
  rw [replayed_log hclean hne hlog, acknowledged_sublist_iff]
  simp

/-- A fragment at the end of the log, behind an append that wrote nothing. -/
theorem torn_append_iff_last :
    let r : LWWRegister := ⟨[118], .empty⟩
    let calls : List AppendCall := [⟨[97], r, none, by simp⟩, ⟨[98], r, some 0, by decide⟩,
      ⟨[99], r, none, by simp⟩, ⟨[100], r, some 5, by decide⟩]
    (acknowledged calls).Sublist (replayed [log calls]) := by
  intro r calls
  have hclean : ∀ c ∈ calls, Clean c.record := by decide +kernel
  have hne : ∀ c ∈ [log calls], c ≠ [] := by decide +kernel
  exact (torn_append_iff hclean hne (List.append_nil _)).2.mpr (by decide +kernel)

/-- One byte of a line that was never acknowledged loses the next record. -/
theorem torn_append_loses_next :
    let r : LWWRegister := ⟨[118], .empty⟩
    let calls : List AppendCall := [⟨[97], r, some 1, by decide⟩, ⟨[98], r, none, by simp⟩]
    acknowledged calls = [([98], r.serialize)] ∧ replayed [log calls] = [] ∧
      (replay .new [log calls]).get [98] = none := by
  decide +kernel

end Wal

end Zenith
