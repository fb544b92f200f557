import Zenith.Storage.Manifest
import Zenith.Storage.Wal

/-!
# Zenith — the line readers

`WAL::replay` and `Manifest::load` read their files with the same two loops. The outer one
appends what a read returned to the partial line left over, until a read returns nothing;
the inner one moves a position from newline to newline and erases what it has passed.
`Lines.readAll`, on which the two models are built, keeps the rest of the buffer in place of
the position.

All loops are total: the inner one moves its position towards the end of the buffer, the
outer one stops at the first empty read. That both are defined by recursion on this measure
is what says so, and nothing is run with fuel here.

Where a file is cut into reads is up to the environment, so it must not matter. It does not,
for the reason that the partial line is carried over; what is left of it at the end of the
file, a last line without its newline, is dropped by both.

Main result: `chunked_readers_agree`.
-/

namespace Zenith

open Bytes

namespace LineReader

-- ---------------------------------------------------------------------------
-- The loops with a position
-- ---------------------------------------------------------------------------

/-- `std::string::find` of one character. -/
def find (c : UInt8) (buf : Bytes) (pos : Nat) : Option Nat :=
  ((buf.drop pos).findIdx? fun b => decide (b = c)).map fun i => pos + i

/-- What is found is in the buffer, at the position or behind it. -/
theorem find_lt {c : UInt8} {buf : Bytes} {pos nl : Nat} (h : find c buf pos = some nl) :
    pos ≤ nl ∧ nl < buf.length := by
  obtain ⟨i, hi, rfl⟩ := Option.map_eq_some_iff.mp h
  obtain ⟨hlt, -⟩ := List.findIdx?_eq_some_iff_getElem.mp hi
  rw [List.length_drop] at hlt
  omega

section Loops

variable {σ : Type} (f : σ → Bytes → σ)

/-- The inner loop: the line from `pos` to the next newline, and so on. At the last
one everything before the position is erased. -/
def lineLoop (s : σ) (leftover : Bytes) (pos : Nat) : σ × Bytes :=
  match _h : find Lines.newline leftover pos with
  | none => (s, leftover.drop pos)
  | some nl => lineLoop (f s ((leftover.drop pos).take (nl - pos))) leftover (nl + 1)
termination_by leftover.length - pos
decreasing_by
  have := find_lt _h
  omega

/-- The outer loop over what the reads return. -/
def readLoop (s : σ) (leftover : Bytes) : List Bytes → σ
  | [] => s
  | buffer :: reads =>
    if buffer = [] then s
    else
      let p := lineLoop f s (leftover ++ buffer) 0
      readLoop p.1 p.2 reads

end Loops

/-- Cutting at the first newline, by its index. -/
theorem cut_eq_findIdx? (c : UInt8) (bs : Bytes) :
    Lines.cut c bs = (bs.findIdx? fun b => decide (b = c)).map fun i =>
      (bs.take i, bs.drop (i + 1)) := by
  induction bs with
  | nil => rfl
  | cons b bs ih =>
    rw [Lines.cut, List.findIdx?_cons]
    by_cases hb : b = c
    · simp [hb]
    · simp only [hb, if_false, ih, decide_false, Option.map_map, Bool.false_eq_true]
      rfl

/-- A position in the buffer is as good as the rest of the buffer. -/
theorem cut_drop (c : UInt8) (buf : Bytes) (pos : Nat) :
    Lines.cut c (buf.drop pos) = (find c buf pos).map fun nl =>
      ((buf.drop pos).take (nl - pos), buf.drop (nl + 1)) := by
  rw [cut_eq_findIdx?, find, Option.map_map]
  congr 1
  funext i
  have hdrop : (buf.drop pos).drop (i + 1) = buf.drop (pos + i + 1) := by
    rw [List.drop_drop, Nat.add_assoc]
  show ((buf.drop pos).take i, _) = ((buf.drop pos).take (pos + i - pos), buf.drop (pos + i + 1))
  rw [hdrop, Nat.add_sub_cancel_left]

variable {σ : Type} {f : σ → Bytes → σ}

/-- **The inner loop** drains the rest of the buffer. -/
theorem lineLoop_eq_drain (s : σ) (leftover : Bytes) (pos : Nat) :
    lineLoop f s leftover pos = Lines.drain f s (leftover.drop pos) := by
  -- along the loop: each turn passes one newline
  induction s, pos using lineLoop.induct f leftover with
  | case1 s pos hfind =>
    have hcut : Lines.cut Lines.newline (leftover.drop pos) = none := by
      rw [cut_drop, hfind]
      rfl
    rw [lineLoop, Lines.drain]
    split
    · split
      · rfl
      · next h => rw [hcut] at h; exact absurd h (by simp)
    · next h => rw [hfind] at h; exact absurd h (by simp)
  | case2 s pos nl hfind ih =>
    have hcut : Lines.cut Lines.newline (leftover.drop pos) =
        some ((leftover.drop pos).take (nl - pos), leftover.drop (nl + 1)) := by
      rw [cut_drop, hfind]
      rfl
    rw [lineLoop, Lines.drain]
    split
    · next h => rw [hfind] at h; exact absurd h (by simp)
    · next nl' h =>
      rw [hfind] at h
      obtain rfl := Option.some.inj h
      split
      · next h => rw [hcut] at h; exact absurd h (by simp)
      · next line rest h =>
        rw [hcut] at h
        obtain ⟨rfl, rfl⟩ := Prod.mk.inj (Option.some.inj h)
        exact ih

/-- **The loops of the source** do what the readers of the model do. -/
theorem readLoop_eq_readAll (s : σ) (leftover : Bytes) (reads : List Bytes) :
    readLoop f s leftover reads = Lines.readAll f s leftover reads := by
  induction reads generalizing s leftover with
  | nil => rfl
  | cons buffer reads ih => rw [readLoop, Lines.readAll, lineLoop_eq_drain, List.drop_zero, ih]

-- ---------------------------------------------------------------------------
-- Whole contents
-- ---------------------------------------------------------------------------

/-- Nothing is read after an empty read. -/
theorem readAll_append_empty (s : σ) (leftover : Bytes) (chunks rest : List Bytes) :
    Lines.readAll f s leftover (chunks ++ [] :: rest) = Lines.readAll f s leftover chunks := by
  induction chunks generalizing s leftover with
  | nil => rfl
  | cons chunk chunks ih =>
    rw [List.cons_append, Lines.readAll, Lines.readAll]
    split
    · rfl
    · exact ih _ _

/-- Lines and tail put together give the content back. -/
theorem linesFrom_flatMap (cur content : Bytes) :
    cur ++ content = (Lines.linesFrom cur content).flatMap (· ++ [Lines.newline]) ++
      Lines.tailFrom cur content := by
  induction content generalizing cur with
  | nil => simp [Lines.linesFrom, Lines.tailFrom]
  | cons b content ih =>
    rw [Lines.linesFrom, Lines.tailFrom]
    by_cases hb : b = Lines.newline
    · have hrest := ih []
      rw [List.nil_append] at hrest
      rw [if_pos hb, if_pos hb, List.flatMap_cons, List.append_assoc, ← hrest, hb]
      simp
    · rw [if_neg hb, if_neg hb, ← ih]
      simp

/-- A content is cut into complete lines and a tail in one way only. -/
theorem completeLines_unique {lines : List Bytes} {tail : Bytes}
    (hlines : ∀ l ∈ lines, Lines.newline ∉ l) (htail : Lines.newline ∉ tail) :
    Lines.completeLines (lines.flatMap (· ++ [Lines.newline]) ++ tail) = lines := by
  induction lines with
  | nil => exact (Lines.linesFrom_of_not_mem htail []).1
  | cons line lines ih =>
    obtain ⟨hline, hrest⟩ := List.forall_mem_cons.mp hlines
    rw [List.flatMap_cons, List.append_assoc, List.append_assoc]
    show Lines.completeLines (line ++ Lines.newline ::
      (lines.flatMap (· ++ [Lines.newline]) ++ tail)) = _
    rw [Lines.completeLines_line hline, ih hrest]

/-- **Chunked readers agree.** Every content is a list of lines, each with its newline, and
a tail without one. However reads return it (`chunks` are the reads that return something,
and after the first empty read nothing that follows counts), both files are processed line
by line, once each and in order, and the tail has no effect. This is said of the models and
of the loops with a position alike. -/
theorem chunked_readers_agree :
    (∀ content : Bytes, ∃ (lines : List Bytes) (tail : Bytes),
        content = lines.flatMap (· ++ [Lines.newline]) ++ tail ∧
          (∀ l ∈ lines, Lines.newline ∉ l) ∧ Lines.newline ∉ tail) ∧
      ∀ (lines : List Bytes) (tail : Bytes) (chunks rest : List Bytes),
        (∀ l ∈ lines, Lines.newline ∉ l) → Lines.newline ∉ tail → (∀ c ∈ chunks, c ≠ []) →
        chunks.flatten = lines.flatMap (· ++ [Lines.newline]) ++ tail →
        (∀ mt, Wal.replay mt (chunks ++ [] :: rest) = lines.foldl Wal.replayLine mt ∧
            readLoop Wal.replayLine mt [] (chunks ++ [] :: rest) =
              lines.foldl Wal.replayLine mt) ∧
          Manifest.load (chunks ++ [] :: rest) =
            lines.foldl Manifest.loadLine (List.replicate Manifest.levelCount []) ∧
          readLoop Manifest.loadLine (List.replicate Manifest.levelCount []) []
              (chunks ++ [] :: rest) =
            lines.foldl Manifest.loadLine (List.replicate Manifest.levelCount []) := by
  constructor
  · intro content
    exact ⟨Lines.completeLines content, Lines.tailFrom [] content, linesFrom_flatMap [] content,
      fun l hl => Lines.newline_not_mem_of_mem_linesFrom List.not_mem_nil hl,
      Lines.newline_not_mem_tailFrom List.not_mem_nil content⟩
  · intro lines tail chunks rest hlines htail hne hflatten
    have hread : ∀ {τ : Type} (g : τ → Bytes → τ) (s : τ),
        Lines.readAll g s [] (chunks ++ [] :: rest) = lines.foldl g s := by
      intro τ g s
      rw [readAll_append_empty, Lines.readAll_eq hne, hflatten, completeLines_unique hlines htail]
    refine ⟨fun mt => ⟨hread _ _, ?_⟩, hread _ _, ?_⟩
    · rw [readLoop_eq_readAll]
      exact hread _ _
    · rw [readLoop_eq_readAll]
      exact hread _ _

/-- A put that straddles two reads, an empty line, and a delete without its newline. -/
theorem chunked_readers_agree_straddling :
    Wal.replay .new [[80, 85], [84, 124, 107, 124, 118, 10, 10, 68], [69, 76, 124, 107], []] =
      [[80, 85, 84, 124, 107, 124, 118], []].foldl Wal.replayLine .new :=
  ((chunked_readers_agree.2 [[80, 85, 84, 124, 107, 124, 118], []] [68, 69, 76, 124, 107]
    [[80, 85], [84, 124, 107, 124, 118, 10, 10, 68], [69, 76, 124, 107]] [] (by decide) (by decide)
    (by decide) (by decide)).1 .new).1

end LineReader

end Zenith
