import Zenith.Lib.Levels
import Zenith.Storage.Manifest

/-!
# Zenith — a manifest with torn lines

A process that is killed while it writes to the manifest leaves the first bytes of a line.
The next process appends to the same file, so its first line starts right behind the
fragment, and `load` takes both for one line. Other than in the log, such a line may well be
accepted: behind `ADD 0 L0_5` the line `DEL 1 L1_7.sst` makes `load` list the name
`L0_5DEL`.

What is listed so always ends in `ADD` or `DEL` (`endsInOp`), as no table file does, for an
operation is what stands before the first blank of the line behind the fragment. So the
effect of such a line can be told from that of a whole one by the name alone, and
`tableNames` leaves the former out.

The proof goes by where the fragment ends (`FirstBytes`): within the operation, behind the
blank, behind the level, or in the name. What it is put in front of may itself be a fragment
with a line behind it; `Begins` says what all of these have in common, and is kept when one
more fragment comes in front.

Main results: `load_tornLog`, by which such names aside `load` lists the lines that were
written whole and have no fragment in front, in order, and `listed_torn_iff`.
-/

namespace Zenith

open Bytes

namespace Manifest

/-- A line of `add_sstable` or `replace`. `torn` is `none` when it was written, and the
number of bytes written when that was cut off. -/
structure LineCall where
  adds : Bool
  level : Nat
  file : Bytes
  torn : Option Nat

namespace LineCall

/-- The operation of the line. -/
def op (c : LineCall) : Bytes := if c.adds then opAdd else opDel

/-- The line without its newline. -/
def line (c : LineCall) : Bytes := c.op ++ (32 :: (Text.decimal c.level ++ 32 :: c.file))

/-- What is in the file. -/
def written (c : LineCall) : Bytes :=
  match c.torn with
  | none => encodeRecord c.op c.level c.file
  | some n => c.line.take n

/-- Levels 0 to 6 and names without white space. -/
def WellFormed (c : LineCall) : Prop := c.level < levelCount ∧ NoSpace c.file

instance (c : LineCall) : Decidable c.WellFormed :=
  inferInstanceAs (Decidable (_ ∧ ∀ b ∈ c.file, Text.isSpace b = false))

end LineCall

/-- The manifest that these lines make up. -/
def tornLog (calls : List LineCall) : Bytes := calls.flatMap LineCall.written

/-- The lines that were written and have no fragment in front, `glued` telling whether
one stands in front of the next. -/
def intact : Bool → List LineCall → List LineCall
  | _, [] => []
  | glued, c :: calls =>
    match c.torn with
    | none => if glued then intact false calls else c :: intact false calls
    | some n => intact (glued || decide (n ≠ 0)) calls

/-- The call failed and left a fragment. -/
def LineCall.Tears (c : LineCall) : Prop := ∃ n ∈ c.torn, n ≠ 0

instance (c : LineCall) : Decidable c.Tears :=
  inferInstanceAs (Decidable (∃ n ∈ c.torn, n ≠ 0))

/-- Behind every fragment there is a whole line. -/
def Mended (calls : List LineCall) : Prop :=
  ∀ before c after, calls = before ++ c :: after → c.Tears → ∃ d ∈ after, d.torn = none

/-- The first line and the others. -/
theorem mended_cons_iff {c : LineCall} {calls : List LineCall} :
    Mended (c :: calls) ↔ (c.Tears → ∃ d ∈ calls, d.torn = none) ∧ Mended calls := by
  refine ⟨fun h => ⟨fun htears => h [] c calls rfl htears, fun before d after heq =>
    h (c :: before) d after (by rw [heq]; rfl)⟩, fun h before d after heq htears => ?_⟩
  cases before with
  | nil =>
    obtain ⟨rfl, rfl⟩ := List.cons.inj heq
    exact h.1 htears
  | cons b before => exact h.2 before d after (List.cons.inj heq).2 htears

/-- Where such a line stands. -/
theorem mem_intact_iff {glued : Bool} {calls : List LineCall} {c : LineCall} :
    c ∈ intact glued calls ↔ ∃ before after, calls = before ++ c :: after ∧ c.torn = none ∧
      (glued = true → ∃ d ∈ before, d.torn = none) ∧ Mended before := by
  -- glued says whether a fragment stands in front of the next line
  induction calls generalizing glued with
  | nil => simp [intact]
  | cons d calls ih =>
    -- the line is the first one, or one behind it
    have hsplit : (∃ before after, d :: calls = before ++ c :: after ∧ c.torn = none ∧
        (glued = true → ∃ d ∈ before, d.torn = none) ∧ Mended before) ↔
        (d = c ∧ c.torn = none ∧ glued = false) ∨
        ∃ before after, calls = before ++ c :: after ∧ c.torn = none ∧
          (glued = true → ∃ e ∈ d :: before, e.torn = none) ∧ Mended (d :: before) := by
      constructor
      · rintro ⟨before, after, heq, htorn, hglued, hmended⟩
        cases before with
        | nil =>
          obtain ⟨rfl, -⟩ := List.cons.inj heq
          refine .inl ⟨rfl, htorn, Bool.eq_false_iff.mpr fun h => ?_⟩
          exact absurd (hglued h) (by simp)
        | cons e before =>
          obtain ⟨rfl, hrest⟩ := List.cons.inj heq
          exact .inr ⟨before, after, hrest, htorn, hglued, hmended⟩
      · rintro (⟨rfl, htorn, hglued⟩ | ⟨before, after, heq, htorn, hglued, hmended⟩)
        · refine ⟨[], calls, rfl, htorn, fun h => absurd h (by simp [hglued]), ?_⟩
          exact fun before _ _ h => absurd h (by simp)
        · exact ⟨d :: before, after, by rw [heq]; rfl, htorn, hglued, hmended⟩
    rw [hsplit, intact]
    -- a whole line mends what is in front of it; a torn one leaves the next to be mended
    cases htorn : d.torn with
    | none =>
      have htears : ¬ d.Tears := by simp [LineCall.Tears, htorn]
      have hrest : c ∈ intact false calls ↔ ∃ before after, calls = before ++ c :: after ∧
          c.torn = none ∧ (glued = true → ∃ e ∈ d :: before, e.torn = none) ∧
          Mended (d :: before) := by
        rw [ih]
        simp [mended_cons_iff, htears, htorn]
      cases glued with
      | true => simp [hrest]
      | false =>
        rw [← hrest]
        simp only [Bool.false_eq_true, if_false, List.mem_cons, and_true]
        refine or_congr ⟨fun h => ⟨h.symm, h ▸ htorn⟩, fun h => h.1.symm⟩ Iff.rfl
    | some n =>
      have hne : d = c → c.torn ≠ none := by
        rintro rfl
        simp [htorn]
      rw [ih]
      simp only [mended_cons_iff, LineCall.Tears, htorn, List.mem_cons, Bool.or_eq_true,
        decide_eq_true_eq]
      constructor
      · rintro ⟨before, after, heq, hc, hglued, hmended⟩
        refine .inr ⟨before, after, heq, hc, fun h => ?_, ?_, hmended⟩
        · obtain ⟨e, he, hnone⟩ := hglued (.inl h)
          exact ⟨e, .inr he, hnone⟩
        · rintro ⟨m, hm, hn⟩
          exact hglued (.inr (Option.some.inj hm ▸ hn))
      · rintro (⟨heq, hc, -⟩ | ⟨before, after, heq, hc, hglued, htears, hmended⟩)
        · exact absurd hc (hne heq)
        · refine ⟨before, after, heq, hc, fun h => ?_, hmended⟩
          rcases h with h | h
          · obtain ⟨e, rfl | he, hnone⟩ := hglued h
            · exact absurd hnone (by simp [htorn])
            · exact ⟨e, he, hnone⟩
          · exact htears ⟨n, rfl, h⟩

/-- The names that the lines add to a level, empty ones left out. -/
def addedBy (l : Nat) (calls : List LineCall) : List Bytes :=
  (calls.filter fun c => c.adds && decide (c.level = l ∧ c.file ≠ [])).map LineCall.file

/-- More lines add their names behind. -/
theorem addedBy_append (l : Nat) (calls more : List LineCall) :
    addedBy l (calls ++ more) = addedBy l calls ++ addedBy l more := by
  rw [addedBy, List.filter_append, List.map_append]
  rfl

/-- No table file has such a name. -/
def endsInOp (file : Bytes) : Bool := opAdd.isSuffixOf file || opDel.isSuffixOf file

/-- What stands in front does not matter. -/
theorem endsInOp_append (a : Bytes) {b : Bytes} (h : endsInOp b = true) :
    endsInOp (a ++ b) = true := by
  simp only [endsInOp, Bool.or_eq_true, List.isSuffixOf_iff_suffix] at h ⊢
  exact h.imp (fun h => h.trans (List.suffix_append a b)) fun h => h.trans (List.suffix_append a b)

-- ---------------------------------------------------------------------------
-- Lines with a fragment in front
-- ---------------------------------------------------------------------------

section

variable {c : LineCall} {g : Bytes}

/-- It is `ADD` or `DEL`. -/
theorem LineCall.op_cases (c : LineCall) : c.op = opAdd ∨ c.op = opDel := by
  unfold LineCall.op
  cases c.adds
  · exact .inr rfl
  · exact .inl rfl

/-- It is a word. -/
theorem LineCall.noSpace_op (c : LineCall) : NoSpace c.op := by
  rcases c.op_cases with h | h <;> rw [h]
  · exact noSpace_opAdd
  · exact noSpace_opDel

/-- A line has no newline in it. -/
theorem LineCall.newline_not_mem (hc : c.WellFormed) : Lines.newline ∉ c.line :=
  newline_not_mem_record c.level c.noSpace_op hc.2

/-- A text that begins as a line with fragments in front does: with the letter of an
operation, and up to its first blank with a word that ends in one. -/
structure Begins (g word rest : Bytes) : Prop where
  split : g = word ++ 32 :: rest
  letter : word.head? = some 65 ∨ word.head? = some 68
  noSpace : NoSpace word
  ends : endsInOp word = true

/-- A line begins with its operation. -/
theorem LineCall.begins (c : LineCall) (rest : Bytes) : Begins (c.op ++ 32 :: rest) c.op rest where
  split := rfl
  letter := by rcases c.op_cases with h | h <;> rw [h] <;> decide
  noSpace := c.noSpace_op
  ends := by rcases c.op_cases with h | h <;> rw [h] <;> decide

/-- An operation has three letters. -/
theorem Begins.length {word rest : Bytes} (h : Begins g word rest) : 3 ≤ word.length := by
  have hends := h.ends
  simp only [endsInOp, Bool.or_eq_true, List.isSuffixOf_iff_suffix] at hends
  rcases hends with hends | hends <;> exact hends.length_le

/-- Where the first bytes of a line end: in its operation, right behind the blank, or
behind the level, which is one digit. -/
inductive FirstBytes (c : LineCall) (f : Bytes) : Prop
  | within (hne : f ≠ []) (hpre : f <+: c.op)
  | blank (heq : f = c.op ++ [32])
  | level (heq : f = c.op ++ 32 :: Text.decimal c.level)
  | name (part : Bytes) (hpart : NoSpace part)
      (heq : f = c.op ++ 32 :: (Text.decimal c.level ++ 32 :: part))

/-- The first bytes of a line, by how many they are. -/
theorem LineCall.firstBytes (hc : c.WellFormed) {n : Nat} (hn : n ≠ 0) :
    FirstBytes c (c.line.take n) := by
  have hlen : c.op.length = 3 := by rcases c.op_cases with h | h <;> rw [h] <;> rfl
  have hdigit : (Text.decimal c.level).length = 1 := by
    have hlevel := hc.1
    rw [Text.decimal, if_pos (by unfold levelCount at hlevel; omega)]
    rfl
  unfold LineCall.line
  -- three for the operation, one for the blank, one for the level
  by_cases hop : n ≤ 3
  · rw [List.take_append_of_le_length (by omega)]
    refine .within (fun hnil => ?_) (List.take_prefix n c.op)
    rw [List.take_eq_nil_iff] at hnil
    rcases hnil with hnil | hnil
    · exact hn hnil
    · rw [hnil] at hlen
      exact absurd hlen (by decide)
  obtain ⟨m, rfl⟩ : ∃ m, n = c.op.length + (m + 1) := ⟨n - 4, by omega⟩
  rw [List.take_length_add_append, List.take_succ_cons]
  rcases m with _ | m
  · exact .blank rfl
  obtain ⟨k, hk⟩ : ∃ k, m + 1 = (Text.decimal c.level).length + k := ⟨m, by omega⟩
  rw [hk, List.take_length_add_append]
  rcases k with _ | k
  · rw [List.take_zero, List.append_nil]
    exact .level rfl
  · exact .name (c.file.take k) (fun b hb => hc.2 b (List.mem_of_mem_take hb)) rfl

/-- **A fragment in front** of such a text is such a text. -/
theorem FirstBytes.begins {f word rest : Bytes} (hf : FirstBytes c f) (h : Begins g word rest) :
    ∃ word' rest', Begins (f ++ g) word' rest' := by
  have hop : ∀ tail, ∃ word' rest', Begins (c.op ++ 32 :: tail) word' rest' :=
    fun tail => ⟨c.op, tail, c.begins tail⟩
  -- within the operation, the first word goes on to the blank behind; else it is the operation
  cases hf with
  | within hne hpre =>
    refine ⟨f ++ word, rest, ?_, ?_, ?_, endsInOp_append f h.ends⟩
    · rw [h.split, List.append_assoc]
    · obtain ⟨b, bs, rfl⟩ := List.exists_cons_of_ne_nil hne
      obtain ⟨tail, htail⟩ := hpre
      have hletter := (c.begins []).letter
      rw [← htail] at hletter
      exact hletter
    · intro b hb
      rcases List.mem_append.mp hb with hb | hb
      · exact c.noSpace_op b (hpre.subset hb)
      · exact h.noSpace b hb
  | blank heq =>
    rw [heq, List.append_assoc]
    exact hop _
  | level heq =>
    rw [heq, List.append_assoc]
    exact hop _
  | name part hpart heq =>
    rw [heq, List.append_assoc]
    exact hop _

/-- What a line does to the levels that no one can take for a table file. -/
def AddsNoTable (line : Bytes) : Prop :=
  ∀ levels, loadLine levels line = levels ∨
    ∃ l f, endsInOp f = true ∧ loadLine levels line = levels.modify l (· ++ [f])

/-- An operation that is not `ADD` adds nothing. -/
theorem addsNoTable_of_op {op rest : Bytes} (hne : op ≠ []) (hspace : NoSpace op)
    (hop : op ≠ opAdd) : AddsNoTable (op ++ 32 :: rest) := by
  have htoken : Text.nextToken (op ++ 32 :: rest) = some (op, 32 :: rest) := by
    refine Text.nextToken_append hne hspace fun b hb => ?_
    obtain rfl : 32 = b := by simpa using hb
    rfl
  intro levels
  left
  rw [loadLine, if_neg (by simp), htoken]
  dsimp only
  cases Text.readInt (32 :: rest) with
  | none => rfl
  | some r => exact if_neg hop

/-- What is listed is the next word. -/
theorem addsNoTable_of_word {level : Nat} (hlevel : level < levelCount) (c : LineCall)
    {s word rest : Bytes} (hdigit : ∀ b ∈ s.head?, Text.isDigit b = false)
    (hword : Text.nextToken s = some (word, rest)) (hends : endsInOp word = true) :
    AddsNoTable (c.op ++ 32 :: (Text.decimal level ++ s)) := by
  -- only an ADD lists something
  rcases c.op_cases with hop | hop
  · have hint : Text.readInt (32 :: (Text.decimal level ++ s)) = some ((level : Int), s) :=
      Text.readInt_decimal (by unfold levelCount at hlevel; omega) hdigit
    have htoken : Text.nextToken (opAdd ++ 32 :: (Text.decimal level ++ s)) =
        some (opAdd, 32 :: (Text.decimal level ++ s)) := by
      refine Text.nextToken_append (by decide) noSpace_opAdd fun b hb => ?_
      obtain rfl : 32 = b := by simpa using hb
      rfl
    intro levels
    rw [hop, loadLine, if_neg (by simp [opAdd]), htoken]
    simp only [hint, if_pos, hword, Int.toNat_natCast]
    split
    · exact .inr ⟨level, word, hends, rfl⟩
    · exact .inl rfl
  · rw [hop]
    exact addsNoTable_of_op (by decide) noSpace_opDel (by decide)

/-- **A line with a fragment in front**, by where the fragment ends. -/
theorem FirstBytes.addsNoTable {f word rest : Bytes} (hc : c.WellFormed) (hf : FirstBytes c f)
    (h : Begins g word rest) : AddsNoTable (f ++ g) := by
  have hne : word ≠ [] := by
    rintro rfl
    exact absurd h.length (by decide)
  have hblank : ∀ b ∈ (32 :: rest).head?, Text.isSpace b = true := by
    intro b hb
    obtain rfl : 32 = b := by simpa using hb
    rfl
  -- what stands behind the fragment begins with a letter and not with a blank or a digit
  have hletter : ∀ b ∈ g.head?, b = 65 ∨ b = 68 := by
    intro b hb
    rw [h.split, List.head?_append_of_ne_nil _ hne, Option.mem_def] at hb
    exact h.letter.imp (fun heq => Option.some.inj (hb.symm.trans heq))
      fun heq => Option.some.inj (hb.symm.trans heq)
  have hdigit : ∀ b ∈ g.head?, Text.isDigit b = false := by
    intro b hb
    rcases hletter b hb with rfl | rfl <;> rfl
  cases hf with
  | within hfne hpre =>
    -- the operation has too many letters
    rw [h.split, ← List.append_assoc]
    refine addsNoTable_of_op (by simp [hne]) (fun b hb => ?_) fun heq => ?_
    · rcases List.mem_append.mp hb with hb | hb
      · exact c.noSpace_op b (hpre.subset hb)
      · exact h.noSpace b hb
    · have hlen := congrArg List.length heq
      have hpos := List.length_pos_iff.mpr hfne
      have := h.length
      rw [List.length_append] at hlen
      simp only [opAdd, List.length_cons, List.length_nil] at hlen
      omega
  | blank heq =>
    -- there is no number
    have hint : Text.readInt (32 :: g) = none := by
      have hskip : Text.skipSpace (32 :: g) = g := by
        rw [show Text.skipSpace (32 :: g) = Text.skipSpace g from List.dropWhile_cons_of_pos rfl]
        refine Text.skipSpace_of_not fun b hb => ?_
        rcases hletter b hb with rfl | rfl <;> rfl
      cases g with
      | nil => rfl
      | cons b bs =>
        unfold Text.readInt
        rw [hskip]
        rcases hletter b rfl with rfl | rfl <;> rfl
    have htoken : Text.nextToken (c.op ++ 32 :: g) = some (c.op, 32 :: g) := by
      refine Text.nextToken_append (by rcases c.op_cases with hop | hop <;> rw [hop] <;> decide)
        c.noSpace_op fun b hb => ?_
      obtain rfl : 32 = b := by simpa using hb
      rfl
    intro levels
    left
    rw [heq, List.append_assoc, List.singleton_append, loadLine, if_neg (by simp), htoken]
    simp only [hint]
  | level heq =>
    have hword : Text.nextToken g = some (word, 32 :: rest) := by
      rw [h.split]
      exact Text.nextToken_append hne h.noSpace hblank
    rw [heq, List.append_assoc, List.cons_append]
    exact addsNoTable_of_word hc.1 c hdigit hword h.ends
  | name part hpart heq =>
    have hword : Text.nextToken (32 :: (part ++ g)) = some (part ++ word, 32 :: rest) := by
      rw [Text.nextToken_blank, h.split, ← List.append_assoc]
      refine Text.nextToken_append (by simp [hne]) (fun b hb => ?_) hblank
      exact (List.mem_append.mp hb).elim (hpart b) (h.noSpace b)
    have hblank' : ∀ b ∈ (32 :: (part ++ g)).head?, Text.isDigit b = false := by
      intro b hb
      obtain rfl : 32 = b := by simpa using hb
      rfl
    rw [heq, List.append_assoc, List.cons_append, List.append_assoc, List.cons_append]
    exact addsNoTable_of_word hc.1 c hblank' hword (endsInOp_append part h.ends)

end

-- ---------------------------------------------------------------------------
-- Loading
-- ---------------------------------------------------------------------------

/-- The names of a level, but for those that end in an operation. -/
def tableNames (levels : List (List Bytes)) (l : Nat) : List Bytes :=
  (levels.getD l []).filter fun f => !endsInOp f

/-- No table is listed. -/
theorem AddsNoTable.tableNames {line : Bytes} (h : AddsNoTable line) (levels : List (List Bytes))
    (l : Nat) : tableNames (loadLine levels line) l = tableNames levels l := by
  rcases h levels with heq | ⟨k, f, hends, heq⟩
  · rw [heq]
  · unfold Manifest.tableNames
    rw [heq, List.getD_eq_getElem?_getD, List.getD_eq_getElem?_getD, List.getElem?_modify]
    by_cases hk : k = l
    · cases levels[l]? <;> simp [hk, hends]
    · simp [hk]

/-- The number of levels stays. -/
theorem AddsNoTable.length {line : Bytes} (h : AddsNoTable line) (levels : List (List Bytes)) :
    (loadLine levels line).length = levels.length := by
  rcases h levels with heq | ⟨k, f, -, heq⟩ <;> rw [heq]
  exact List.length_modify ..

/-- A whole line. -/
theorem LineCall.load_line {c : LineCall} (hc : c.WellFormed) {levels : List (List Bytes)}
    (hlen : levels.length = levelCount) (l : Nat) :
    (loadLine levels c.line).length = levelCount ∧
      tableNames (loadLine levels c.line) l =
        tableNames levels l ++ (addedBy l [c]).filter fun f => !endsInOp f := by
  obtain ⟨adds, level, file, torn⟩ := c
  obtain ⟨hlevel, hfile⟩ := hc
  -- a DEL line leaves the lists as they are
  cases adds with
  | false =>
    have hload : loadLine levels (LineCall.line ⟨false, level, file, torn⟩) = levels :=
      loadLine_del hlevel
    rw [hload]
    exact ⟨hlen, by simp [addedBy]⟩
  | true =>
    have hload : loadLine levels (LineCall.line ⟨true, level, file, torn⟩) =
        if file = [] then levels else levels.modify level (· ++ [file]) :=
      loadLine_add hlen hlevel hfile
    rw [hload]
    by_cases hnil : file = []
    · rw [if_pos hnil]
      exact ⟨hlen, by simp [addedBy, hnil]⟩
    · rw [if_neg hnil]
      refine ⟨(List.length_modify ..).trans hlen, ?_⟩
      unfold tableNames
      rw [List.getD_eq_getElem?_getD, List.getD_eq_getElem?_getD, List.getElem?_modify]
      by_cases hl : level = l
      · subst hl
        have hin : level < levels.length := hlen ▸ hlevel
        rw [List.getElem?_eq_getElem hin]
        simp [addedBy, hnil, List.filter_append]
      · simp [addedBy, hl]

/-- Whatever is in the file, a line is read to names without white space. -/
theorem loadLine_names {levels : List (List Bytes)} (h : ∀ f ∈ levels.flatten, NoSpace f)
    (line : Bytes) :
    (loadLine levels line).length = levels.length ∧
      ∀ f ∈ (loadLine levels line).flatten, NoSpace f := by
  unfold loadLine
  split
  · exact ⟨rfl, h⟩
  split
  · exact ⟨rfl, h⟩
  split
  · exact ⟨rfl, h⟩
  split
  · split
    · exact ⟨rfl, h⟩
    · next file rest hread =>
      split
      · refine ⟨List.length_modify .., Levels.forall_flatten_modify h (fun level hlevel => ?_) _⟩
        exact List.forall_mem_append.mpr
          ⟨hlevel, List.forall_mem_singleton.mpr (Text.nextToken_noSpace hread)⟩
      · exact ⟨rfl, h⟩
  · exact ⟨rfl, h⟩

/-- So what is listed are words, in seven levels. -/
theorem load_names {chunks : List Bytes} (hne : ∀ c ∈ chunks, c ≠ []) :
    (load chunks).length = levelCount ∧ ∀ f ∈ (load chunks).flatten, NoSpace f := by
  have hlines : ∀ (lines : List Bytes) (levels : List (List Bytes)),
      levels.length = levelCount → (∀ f ∈ levels.flatten, NoSpace f) →
      (lines.foldl loadLine levels).length = levelCount ∧
        ∀ f ∈ (lines.foldl loadLine levels).flatten, NoSpace f := by
    intro lines
    induction lines with
    | nil => exact fun levels hlen h => ⟨hlen, h⟩
    | cons line lines ih =>
      intro levels hlen h
      obtain ⟨hlen', h'⟩ := loadLine_names h line
      exact ih _ (hlen'.trans hlen) h'
  rw [load, Lines.readAll_eq hne]
  refine hlines _ _ List.length_replicate fun f hf => ?_
  obtain ⟨names, hnames, hf⟩ := List.mem_flatten.mp hf
  rw [List.eq_of_mem_replicate hnames] at hf
  exact absurd hf List.not_mem_nil

/-- The fragments in front of the next line. Whatever begins as a line does adds no table
behind them. -/
structure Fragments (cur : Bytes) : Prop where
  newline : Lines.newline ∉ cur
  hides : cur ≠ [] → ∀ g word rest, Begins g word rest → AddsNoTable (cur ++ g)

/-- No fragment. -/
theorem fragments_nil : Fragments [] := ⟨List.not_mem_nil, fun h => absurd rfl h⟩

/-- One more fragment. -/
theorem Fragments.append {cur : Bytes} (h : Fragments cur) {c : LineCall} (hc : c.WellFormed)
    {n : Nat} (hn : n ≠ 0) : Fragments (cur ++ c.line.take n) where
  newline := by
    rw [List.mem_append, not_or]
    exact ⟨h.newline, fun hmem => LineCall.newline_not_mem hc (List.mem_of_mem_take hmem)⟩
  hides := by
    rintro - g word rest hg
    have hfirst := LineCall.firstBytes hc hn
    by_cases hnil : cur = []
    · rw [hnil, List.nil_append]
      exact hfirst.addsNoTable hc hg
    · obtain ⟨word', rest', hg'⟩ := hfirst.begins hg
      rw [List.append_assoc]
      exact h.hides hnil _ _ _ hg'

/-- **The lines that are read**, by induction on the calls. `cur` is what stands in front of
the next line. -/
theorem tableNames_linesFrom {calls : List LineCall} (hcalls : ∀ c ∈ calls, c.WellFormed)
    {cur : Bytes} (hcur : Fragments cur) {levels : List (List Bytes)}
    (hlen : levels.length = levelCount) (l : Nat) :
    tableNames ((Lines.linesFrom cur (tornLog calls)).foldl loadLine levels) l =
      tableNames levels l ++
        (addedBy l (intact (decide (cur ≠ [])) calls)).filter fun f => !endsInOp f := by
  induction calls generalizing cur levels with
  | nil => simp [tornLog, Lines.linesFrom, intact, addedBy]
  | cons c calls ih =>
    obtain ⟨hc, hcalls⟩ := List.forall_mem_cons.mp hcalls
    have hlog : tornLog (c :: calls) = c.written ++ tornLog calls := rfl
    rw [hlog]
    -- a whole line is read with what is in front of it; a torn one is put in front of the next
    cases htorn : c.torn with
    | none =>
      have hwritten : c.written = c.line ++ [Lines.newline] := by
        rw [LineCall.written, htorn]
        rfl
      have hlines := (Lines.linesFrom_line (LineCall.newline_not_mem hc) cur (tornLog calls)).1
      rw [hwritten, List.append_assoc, List.singleton_append, hlines, List.foldl_cons, intact,
        htorn]
      -- with no fragment in front it is read as it was written
      by_cases hnil : cur = []
      · obtain ⟨hlen', hnames⟩ := LineCall.load_line hc hlen l
        subst hnil
        rw [List.nil_append, ih hcalls fragments_nil hlen', hnames, List.append_assoc,
          ← List.filter_append, ← addedBy_append]
        rfl
      · have hadds : AddsNoTable (cur ++ c.line) :=
          hcur.hides hnil _ _ _ (c.begins (Text.decimal c.level ++ 32 :: c.file))
        rw [ih hcalls fragments_nil ((hadds.length levels).trans hlen), hadds.tableNames]
        simp [hnil]
    | some n =>
      have hwritten : c.written = c.line.take n := by rw [LineCall.written, htorn]
      have hnot : Lines.newline ∉ c.line.take n := fun hmem =>
        LineCall.newline_not_mem hc (List.mem_of_mem_take hmem)
      obtain ⟨hlines, htail⟩ := Lines.linesFrom_of_not_mem hnot cur
      rw [hwritten, Lines.linesFrom_append, hlines, htail, List.nil_append, intact, htorn]
      dsimp only
      by_cases hn : n = 0
      · subst hn
        rw [List.take_zero, List.append_nil, ih hcalls hcur hlen]
        simp
      · have hne : cur ++ c.line.take n ≠ [] := by
          rw [ne_eq, List.append_eq_nil_iff, List.take_eq_nil_iff, not_and, not_or]
          exact fun _ => ⟨hn, by simp [LineCall.line]⟩
        rw [ih hcalls (hcur.append hc hn) hlen, decide_eq_true hne, decide_eq_true hn,
          Bool.or_true]

/-- **Loading a torn manifest.** But for names that no table has, each level lists what the
whole lines with no fragment in front add to it, in order. The lines are well formed
(`hcalls`: levels 0 to 6, names without white space), and the file is read in any chunks. -/
theorem load_tornLog {calls : List LineCall} (hcalls : ∀ c ∈ calls, c.WellFormed)
    {chunks : List Bytes} (hne : ∀ c ∈ chunks, c ≠ []) (hlog : chunks.flatten = tornLog calls)
    (l : Nat) :
    tableNames (load chunks) l = (addedBy l (intact false calls)).filter fun f => !endsInOp f := by
  have hempty : tableNames (List.replicate levelCount []) l = [] := by
    unfold tableNames
    rw [List.getD_eq_getElem?_getD, List.getElem?_replicate]
    split <;> rfl
  have hlen : (List.replicate levelCount ([] : List Bytes)).length = levelCount :=
    List.length_replicate
  have hlines := tableNames_linesFrom hcalls fragments_nil hlen l
  rw [hempty, List.nil_append] at hlines
  rw [load, Lines.readAll_eq hne, hlog]
  exact hlines

/-- A table is listed if and only if a whole line with no fragment in front adds it. -/
theorem mem_load_iff {calls : List LineCall} (hcalls : ∀ c ∈ calls, c.WellFormed)
    {chunks : List Bytes} (hne : ∀ c ∈ chunks, c ≠ []) (hlog : chunks.flatten = tornLog calls)
    {file : Bytes} (hfile : file ≠ []) (htable : endsInOp file = false) {l : Nat} :
    file ∈ (load chunks).getD l [] ↔
      ∃ c ∈ intact false calls, c.adds = true ∧ c.level = l ∧ c.file = file := by
  have hnames : file ∈ tableNames (load chunks) l ↔ file ∈ (load chunks).getD l [] := by
    unfold tableNames
    rw [List.mem_filter, htable]
    exact and_iff_left rfl
  rw [← hnames, load_tornLog hcalls hne hlog l, List.mem_filter, htable, addedBy, List.mem_map]
  simp only [List.mem_filter, Bool.and_eq_true, decide_eq_true_eq, Bool.not_false, and_true]
  constructor
  · rintro ⟨c, ⟨hc, hadds, hlevel, -⟩, rfl⟩
    exact ⟨c, hc, hadds, hlevel, rfl⟩
  · rintro ⟨c, hc, hadds, hlevel, rfl⟩
    exact ⟨c, ⟨hc, hadds, hlevel, hfile⟩, rfl⟩

/-- **What a torn manifest lists.** A table is listed for a level if and only if a line that
adds it was written whole, and behind every fragment in front of that line there is another
whole line.

Hypotheses:
* `hcalls` — the lines are well formed, whole or cut off: levels 0 to 6 and names without
  white space;
* `hne`, `hlog` — the file is read in any chunks that make up what is in it;
* `hfile`, `htable` — the table has a name, and one that does not end in `ADD` or `DEL`, as
  all names of the database end in `.sst`. -/
theorem listed_torn_iff {calls : List LineCall} (hcalls : ∀ c ∈ calls, c.WellFormed)
    {chunks : List Bytes} (hne : ∀ c ∈ chunks, c ≠ []) (hlog : chunks.flatten = tornLog calls)
    {file : Bytes} (hfile : file ≠ []) (htable : endsInOp file = false) (l : Nat) :
    file ∈ (load chunks).getD l [] ↔
      ∃ before c after, calls = before ++ c :: after ∧ c.adds = true ∧ c.level = l ∧
        c.file = file ∧ c.torn = none ∧ Mended before := by
  rw [mem_load_iff hcalls hne hlog hfile htable]
  constructor
  · rintro ⟨c, hc, hadds, hlevel, hname⟩
    obtain ⟨before, after, heq, htorn, -, hmended⟩ := mem_intact_iff.mp hc
    exact ⟨before, c, after, heq, hadds, hlevel, hname, htorn, hmended⟩
  · rintro ⟨before, c, after, heq, hadds, hlevel, hname, htorn, hmended⟩
    have hc := mem_intact_iff.mpr
      ⟨before, after, heq, htorn, fun h => absurd h Bool.false_ne_true, hmended⟩
    exact ⟨c, hc, hadds, hlevel, hname⟩

/-- A line cut off in its name, and one cut off behind it, with whole lines after them. -/
def tornLines : List LineCall :=
  [⟨true, 0, [65], none⟩, ⟨true, 0, [66, 67], some 7⟩, ⟨true, 1, [68], none⟩,
    ⟨true, 0, [69], none⟩, ⟨false, 0, [65], some 2⟩, ⟨true, 1, [70], some 5⟩,
    ⟨false, 1, [71], none⟩, ⟨true, 2, [72], none⟩]

/-- The line behind a fragment is lost, and a name is listed that nothing has. -/
theorem listed_torn_iff_lines :
    load [tornLog tornLines] = [[[65], [66] ++ opAdd, [69]], [], [[72]], [], [], [], []] ∧
      ([69] ∈ (load [tornLog tornLines]).getD 0 [] ↔
        ∃ before c after, tornLines = before ++ c :: after ∧ c.adds = true ∧ c.level = 0 ∧
          c.file = [69] ∧ c.torn = none ∧ Mended before) := by
  have hcalls : ∀ c ∈ tornLines, c.WellFormed := by decide +kernel
  have hne : ∀ c ∈ [tornLog tornLines], c ≠ [] := by decide +kernel
  have hfile : ([69] : Bytes) ≠ [] := by decide
  have htable : endsInOp [69] = false := by decide
  exact ⟨by decide +kernel,
    listed_torn_iff hcalls hne (List.append_nil _) hfile htable 0⟩

end Manifest

end Zenith
