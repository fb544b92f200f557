import Zenith.Lib.Within
import Zenith.SSTable.BlockBounds

/-!
# Zenith — decoding a block that may be anything

What the bytes of a block have to be for `find_in_block` and `scan_block` to stay inside
them, on any machine. Neither reader checks its block, so both need the same of the search:
the restart array lies inside the block, and so does every key that the search looks at, as
far as a comparison reads it. From the restart where the search ends, records have to follow
one another up to the array or to one that ends the walk.

How much of a record has to be there is not the same for all of them. Of every record that a
walk comes to, the two length fields are read, so they and the key between them have to lie
inside. The value is read when it is copied, and that happens for the key a lookup searches
for and for the keys of a scan's range. A copy that no memory can be had for is not made:
the reader throws, and what lies behind that record does not matter.

The conditions are computed from the bytes. `headAt` takes the head of a record as far as
its bytes are there, `recordStart` goes from one to the next, and `RecordsFrom` says that
records follow one another until the walk ends. `Searches` lists the intervals that the
search over the restarts comes to. None of them mentions the outcome of a read.

Both walks are instances of one shape: go past some records, end at others, and read the
head of each. `walk_iff` proves the condition for the shape; the two walks differ in which
records they go past and which ones end them.

Main results:

* `findBlock_within_iff`, `scanBlockRows_within_iff`: the readers stay inside a block
  exactly when it is `Decodable`;
* `scanFrom_eq_ok_iff`: the rows of a scan of everything, read off the block.
-/

namespace Zenith

open Bytes

namespace SSTable

-- ---------------------------------------------------------------------------
-- Records
-- ---------------------------------------------------------------------------

/-- The head of the record at `ptr`, as far as its bytes are there. -/
def headAt (block : Bytes) (ptr : Nat) : EntryHead :=
  ⟨(block.drop (ptr + 4)).take (leAt 4 block ptr), ptr + 4 + leAt 4 block ptr + 4,
    leAt 4 block (ptr + 4 + leAt 4 block ptr)⟩

/-- Both length fields lie inside the block, and the key between them. -/
def HeadInside (block : Bytes) (ptr : Nat) : Prop := (headAt block ptr).valueAt ≤ block.length

/-- The value of the record lies inside the block as well. -/
def ValueInside (block : Bytes) (head : EntryHead) : Prop := head.next ≤ block.length

/-- Where the `i`-th record starts, counted from the one at `off`. -/
def recordStart (block : Bytes) (off i : Nat) : Nat :=
  (fun ptr => (headAt block ptr).next)^[i] off

/-- From `off` on `n` records follow one another that do not end a walk. Behind them is the
limit, or a record that ends it. -/
def RecordsTo (block : Bytes) (limit : Nat) (goes ends : EntryHead → Prop) (off n : Nat) :
    Prop :=
  (∀ i < n, HeadInside block (recordStart block off i) ∧
    goes (headAt block (recordStart block off i))) ∧
    (limit ≤ recordStart block off n ∨ HeadInside block (recordStart block off n) ∧
      ends (headAt block (recordStart block off n)))

/-- Records follow one another from `off` on until the walk ends. -/
def RecordsFrom (block : Bytes) (limit : Nat) (goes ends : EntryHead → Prop) (off : Nat) :
    Prop :=
  ∃ n, RecordsTo block limit goes ends off n

/-- A head is read exactly where it lies inside the block. -/
theorem readHead_ok_iff {block : Bytes} {ptr : Nat} {head : EntryHead} :
    readHead block ptr = .ok head ↔ HeadInside block ptr ∧ headAt block ptr = head := by
  unfold HeadInside headAt
  simp only [readHead, Except.bind_eq_ok_iff]
  constructor
  · rintro ⟨klen, hklen, vlen, hvlen, key, hkey, hr⟩
    obtain ⟨-, rfl⟩ := readLE_ok_iff.mp hklen
    obtain ⟨hinside, rfl⟩ := readLE_ok_iff.mp hvlen
    obtain ⟨-, rfl⟩ := slice_ok hkey
    exact ⟨hinside, Except.ok.inj hr⟩
  · rintro ⟨hinside, rfl⟩
    exact ⟨_, readLE_ok_iff.mpr ⟨by omega, rfl⟩, _, readLE_ok_iff.mpr ⟨hinside, rfl⟩, _,
      if_pos (by omega), rfl⟩

/-- Where it does not, the reader leaves the block: it has no exception for that. -/
theorem within_readHead_bind_iff {α : Type} {throws : Prop} {block : Bytes} {ptr : Nat}
    {next : EntryHead → Except Fault α} : Within throws (readHead block ptr >>= next) ↔
      HeadInside block ptr ∧ Within throws (next (headAt block ptr)) := by
  have hread : NeverThrows (readHead block ptr) :=
    (readLE_neverThrows 4 _ _).bind fun _ => (readLE_neverThrows 4 _ _).bind fun _ =>
      (slice_neverThrows _ _ _).bind fun _ => .ok _
  rw [within_bind_iff, hread.within_iff]
  simp only [readHead_ok_iff, exists_and_left, exists_eq', and_true, and_imp]
  exact and_congr_right fun h => by simp [h]

section Records

variable {block : Bytes} {limit off n : Nat} {goes ends : EntryHead → Prop}

@[simp] theorem recordStart_zero : recordStart block off 0 = off := rfl

@[simp] theorem recordStart_succ :
    recordStart block off (n + 1) = recordStart block (headAt block off).next n := rfl

/-- No record, or one record more. -/
theorem recordsTo_zero_iff : RecordsTo block limit goes ends off 0 ↔
    limit ≤ off ∨ HeadInside block off ∧ ends (headAt block off) := by
  simp [RecordsTo]

/-- One record more. -/
theorem recordsTo_succ_iff : RecordsTo block limit goes ends off (n + 1) ↔
    HeadInside block off ∧ goes (headAt block off) ∧
      RecordsTo block limit goes ends (headAt block off).next n := by
  rw [RecordsTo, RecordsTo, Nat.forall_lt_succ_left]
  simp only [recordStart_zero, recordStart_succ, and_assoc]

/-- Records from `off` on: the limit, a record that ends the walk, or one that it goes past
and records from the next. -/
theorem recordsFrom_iff : RecordsFrom block limit goes ends off ↔
    limit ≤ off ∨ HeadInside block off ∧ (ends (headAt block off) ∨
      goes (headAt block off) ∧ RecordsFrom block limit goes ends (headAt block off).next) := by
  constructor
  · rintro ⟨n, h⟩
    cases n with
    | zero => exact (recordsTo_zero_iff.mp h).imp_right fun h => ⟨h.1, .inl h.2⟩
    | succ n =>
      obtain ⟨hhead, hgoes, hrest⟩ := recordsTo_succ_iff.mp h
      exact .inr ⟨hhead, .inr ⟨hgoes, n, hrest⟩⟩
  · rintro (hge | ⟨hhead, hends | ⟨hgoes, n, hrest⟩⟩)
    · exact ⟨0, recordsTo_zero_iff.mpr (.inl hge)⟩
    · exact ⟨0, recordsTo_zero_iff.mpr (.inr ⟨hhead, hends⟩)⟩
    · exact ⟨n + 1, recordsTo_succ_iff.mpr ⟨hhead, hgoes, hrest⟩⟩

/-- A walk that goes from record to record stays inside exactly over such records. By
induction on what is left up to the limit. -/
theorem walk_iff (walk : Nat → Prop) (hbehind : ∀ off, limit ≤ off → walk off)
    (hcut : ∀ off < limit, ¬ HeadInside block off → ¬ walk off)
    (hread : ∀ off < limit, HeadInside block off → (walk off ↔ ends (headAt block off) ∨
      goes (headAt block off) ∧ walk (headAt block off).next)) :
    walk off ↔ RecordsFrom block limit goes ends off := by
  induction hn : limit - off using Nat.strong_induction_on generalizing off with
  | _ n ih =>
  rw [recordsFrom_iff]
  rcases Nat.lt_or_ge off limit with hlt | hge
  · rw [or_iff_right hlt.not_ge]
    by_cases hhead : HeadInside block off
    · have hnext := lt_of_readHead (readHead_ok_iff.mpr ⟨hhead, rfl⟩)
      rw [hread off hlt hhead, ih (limit - (headAt block off).next) (by omega) rfl,
        and_iff_right hhead]
    · exact iff_of_false (hcut off hlt hhead) fun h => hhead h.1
  · exact iff_of_true (hbehind off hge) (.inl hge)

end Records

/-- The row that is made of a record. -/
def rowAt (block : Bytes) (head : EntryHead) : Entry :=
  (head.key, (block.drop head.valueAt).take head.vlen)

/-- The rows of `n` records from `off` on. -/
def rowsFrom (block : Bytes) (off n : Nat) : List Entry :=
  (List.range n).map fun i => rowAt block (headAt block (recordStart block off i))

/-- One row more. -/
theorem rowsFrom_succ (block : Bytes) (off n : Nat) : rowsFrom block off (n + 1) =
    rowAt block (headAt block off) :: rowsFrom block (headAt block off).next n := by
  rw [rowsFrom, List.range_succ_eq_map, List.map_cons, List.map_map]
  rfl

-- ---------------------------------------------------------------------------
-- The two walks
-- ---------------------------------------------------------------------------

section Walks

variable [m : Machine] {throws : Prop} {block : Bytes} {limit off : Nat}

/-- Memory that is refused is an exception. -/
theorem within_alloc_iff {n : Nat} :
    Within throws (m.alloc n) ↔ m.grants n = true ∨ throws := by
  unfold Machine.alloc
  split
  · next h => simp [h]
  · next h => simp [h]

/-- Memory is granted or not. -/
theorem alloc_ok_iff {n : Nat} {u : Unit} : m.alloc n = .ok u ↔ m.grants n = true := by
  unfold Machine.alloc
  split
  · next h => simp [h]
  · next h => simp [h]

/-- A copy is refused, or is made of bytes that are there. -/
theorem within_copyOut_iff {len : Nat} : Within throws (copyOut block off len) ↔
    (m.grants len = true → off + len ≤ block.length) ∧ (m.grants len = false → throws) := by
  rw [copyOut, within_bind_iff, within_alloc_iff]
  simp only [alloc_ok_iff, within_slice_iff]
  cases m.grants len <;> simp

/-- A copy that was made. -/
theorem copyOut_ok_iff {len : Nat} {b : Bytes} : copyOut block off len = .ok b ↔
    m.grants len = true ∧ slice block off len = .ok b := by
  simp only [copyOut, Except.bind_eq_ok_iff, alloc_ok_iff, exists_const]

/-- A copy that is not refused, and what is done with it. -/
theorem within_copyOut_bind_iff {α : Type} {len : Nat} {next : Bytes → Except Fault α} :
    Within throws (copyOut block off len >>= next) ↔
      (m.grants len = true → off + len ≤ block.length ∧
        Within throws (next ((block.drop off).take len))) ∧
      (m.grants len = false → throws) := by
  rw [within_bind_iff, within_copyOut_iff]
  simp only [copyOut_ok_iff]
  constructor
  · rintro ⟨⟨hinside, hrefused⟩, hnext⟩
    exact ⟨fun h => ⟨hinside h, hnext _ ⟨h, if_pos (hinside h)⟩⟩, hrefused⟩
  · rintro ⟨hinside, hrefused⟩
    refine ⟨⟨fun h => (hinside h).1, hrefused⟩, ?_⟩
    rintro b ⟨h, hb⟩
    obtain ⟨-, rfl⟩ := slice_ok hb
    exact (hinside h).2

/-- Memory can be had for the value of a record, and the value lies inside the block. -/
def Copied (m : Machine) (block : Bytes) (head : EntryHead) : Prop :=
  m.grants head.vlen = true ∧ ValueInside block head

/-- A lookup of `key` goes past the records below it. -/
def findGoes (key : Bytes) (head : EntryHead) : Prop := head.key < key

/-- It ends at a larger key, and at its own with a copy of the value. -/
def findEnds (m : Machine) (throws : Prop) (block key : Bytes) (head : EntryHead) : Prop :=
  key < head.key ∨
    head.key = key ∧ (Copied m block head ∨ m.grants head.vlen = false ∧ throws)

/-- A scan goes past the records up to the end of its range. From the start of the range on
it makes strings of their keys and values. -/
def scanGoes (m : Machine) (block start stop : Bytes) (head : EntryHead) : Prop :=
  head.key ≤ stop ∧
    (start ≤ head.key → Copied m block head ∧ m.grants head.key.length = true)

/-- It ends behind its range, or at a row that no memory can be had for. -/
def scanEnds (m : Machine) (throws : Prop) (block start stop : Bytes) (head : EntryHead) :
    Prop :=
  stop < head.key ∨ (start ≤ head.key ∧ throws ∧ (m.grants head.vlen = false ∨
    ValueInside block head ∧ m.grants head.key.length = false))

/-- The walk of `find_in_block`. -/
theorem findFrom_within_iff (key : Bytes) : Within throws (findFrom block limit key off) ↔
    RecordsFrom block limit (findGoes key) (findEnds m throws block key) off := by
  apply walk_iff fun off => Within throws (findFrom block limit key off)
  · intro off hge
    rw [findFrom, if_neg hge.not_gt]
    trivial
  · intro off hlt hcut h
    rw [findFrom_eq hlt, within_readHead_bind_iff] at h
    exact hcut h.1
  · intro off hlt hhead
    rw [findFrom_eq hlt, within_readHead_bind_iff, and_iff_right hhead, findGoes, findEnds]
    generalize headAt block off = head
    rcases lt_trichotomy head.key key with hbelow | heq | habove
    · -- below the key: on to the next record
      simp [hbelow, hbelow.ne, hbelow.not_gt]
    · -- the key itself: its value is copied
      rw [if_pos heq, within_map_iff, within_copyOut_iff, Copied, ValueInside, EntryHead.next]
      cases m.grants head.vlen <;> simp [heq]
    · -- above it
      simp [habove, habove.ne', habove.not_gt]

/-- The walk of `scan_block`. -/
theorem scanFrom_within_iff (start stop : Bytes) :
    Within throws (scanFrom block limit start stop off) ↔
      RecordsFrom block limit (scanGoes m block start stop) (scanEnds m throws block start stop)
        off := by
  apply walk_iff fun off => Within throws (scanFrom block limit start stop off)
  · intro off hge
    rw [scanFrom, if_neg hge.not_gt]
    trivial
  · intro off hlt hcut h
    rw [scanFrom_eq hlt, within_readHead_bind_iff] at h
    exact hcut h.1
  · intro off hlt hhead
    rw [scanFrom_eq hlt, within_readHead_bind_iff, and_iff_right hhead, scanGoes, scanEnds]
    generalize headAt block off = head
    by_cases hstop : head.key > stop
    · -- behind the range
      simp [hstop]
    · rw [if_neg hstop]
      rw [gt_iff_lt, not_lt] at hstop
      by_cases hstart : start ≤ head.key
      · -- a row: its value is copied, then its key
        rw [if_pos hstart]
        simp only [within_bind_iff, within_copyOut_iff, copyOut_ok_iff, within_alloc_iff,
          alloc_ok_iff, within_pure, Copied, ValueInside, EntryHead.next]
        by_cases hvalue : head.valueAt + head.vlen ≤ block.length
        · obtain ⟨v, hv, -⟩ := exists_slice block _ _ hvalue
          cases m.grants head.vlen <;> cases m.grants head.key.length <;>
            simp [hv, hvalue, hstart, hstop, hstop.not_gt]
        · have hnone : ∀ v, slice block head.valueAt head.vlen ≠ .ok v :=
            fun v hv => hvalue (slice_ok hv).1
          cases m.grants head.vlen <;> simp [hnone, hvalue, hstart, hstop, hstop.not_gt]
      · -- in front of the range
        simp [hstart, hstop, hstop.not_gt]

-- ---------------------------------------------------------------------------
-- The rows of a scan of everything
-- ---------------------------------------------------------------------------

/-- From `off` on there are `n` rows up to `stop`, and all of them can be copied. -/
def RowsTo (m : Machine) (block : Bytes) (limit : Nat) (stop : Bytes) (off n : Nat) : Prop :=
  RecordsTo block limit (scanGoes m block [] stop) (stop < ·.key) off n ∧
    ∀ i < n, recordStart block off i < limit

/-- One row more, in front of the others. -/
theorem rowsTo_succ_iff {stop : Bytes} {n : Nat} : RowsTo m block limit stop off (n + 1) ↔
    off < limit ∧ HeadInside block off ∧ scanGoes m block [] stop (headAt block off) ∧
      RowsTo m block limit stop (headAt block off).next n := by
  rw [RowsTo, RowsTo, recordsTo_succ_iff, Nat.forall_lt_succ_left]
  simp only [recordStart_zero, recordStart_succ]
  tauto

/-- **What a scan of everything returns**: the rows that follow one another from `off`
on. By induction on what is left up to the limit. -/
theorem scanFrom_eq_ok_iff {stop : Bytes} {rows : List Entry} :
    scanFrom block limit [] stop off = .ok rows ↔
      ∃ n, RowsTo m block limit stop off n ∧ rows = rowsFrom block off n := by
  induction hn : limit - off using Nat.strong_induction_on generalizing off rows with
  | _ n ih =>
  have hzero : RowsTo m block limit stop off 0 ↔
      limit ≤ off ∨ HeadInside block off ∧ stop < (headAt block off).key := by
    rw [RowsTo, recordsTo_zero_iff]
    simp
  rcases Nat.lt_or_ge off limit with hlt | hge
  · -- the first row, if there is one, and the rows behind it
    have hcases : (∃ n, RowsTo m block limit stop off n ∧ rows = rowsFrom block off n) ↔
        HeadInside block off ∧ (stop < (headAt block off).key ∧ rows = [] ∨
          scanGoes m block [] stop (headAt block off) ∧ ∃ out,
            (∃ n, RowsTo m block limit stop (headAt block off).next n ∧
              out = rowsFrom block (headAt block off).next n) ∧
            rows = rowAt block (headAt block off) :: out) := by
      constructor
      · rintro ⟨n, hto, rfl⟩
        cases n with
        | zero =>
          obtain ⟨hhead, hends⟩ := (hzero.mp hto).resolve_left hlt.not_ge
          exact ⟨hhead, .inl ⟨hends, rfl⟩⟩
        | succ n =>
          obtain ⟨-, hhead, hgoes, hrest⟩ := rowsTo_succ_iff.mp hto
          exact ⟨hhead, .inr ⟨hgoes, _, ⟨n, hrest, rfl⟩, rowsFrom_succ block off n⟩⟩
      · rintro ⟨hhead, ⟨hends, rfl⟩ | ⟨hgoes, _, ⟨n, hrest, rfl⟩, rfl⟩⟩
        · exact ⟨0, hzero.mpr (.inr ⟨hhead, hends⟩), rfl⟩
        · exact ⟨n + 1, rowsTo_succ_iff.mpr ⟨hlt, hhead, hgoes, hrest⟩,
            (rowsFrom_succ block off n).symm⟩
    rw [hcases, scanFrom_eq hlt, Except.bind_eq_ok_iff]
    simp only [readHead_ok_iff, and_assoc, exists_and_left, exists_eq_left']
    refine and_congr_right fun hhead => ?_
    have hnext := lt_of_readHead (readHead_ok_iff.mpr ⟨hhead, rfl⟩)
    have ih' : ∀ out, scanFrom block limit [] stop (headAt block off).next = .ok out ↔
        ∃ n, RowsTo m block limit stop (headAt block off).next n ∧
          out = rowsFrom block (headAt block off).next n :=
      fun out => ih (limit - (headAt block off).next) (by omega) rfl
    generalize headAt block off = head at ih' ⊢
    simp only [← ih']
    -- a key above the end, or a row whose key and value are copied
    by_cases hstop : head.key > stop
    · rw [if_pos hstop, Except.ok.injEq, eq_comm]
      simp [scanGoes, hstop]
    · have hstart : ([] : Bytes) ≤ head.key := not_lt.mp (List.not_lt_nil head.key)
      rw [if_neg hstop, if_pos hstart, or_iff_right (fun h => hstop h.1)]
      simp only [Except.bind_eq_ok_iff, copyOut_ok_iff, alloc_ok_iff, Except.pure_eq_ok,
        Except.ok.injEq]
      constructor
      · rintro ⟨v, ⟨hvlen, hv⟩, -, hklen, out, hout, rfl⟩
        obtain ⟨hvalue, rfl⟩ := slice_ok hv
        exact ⟨⟨not_lt.mp hstop, fun _ => ⟨⟨hvlen, hvalue⟩, hklen⟩⟩, out, hout, rfl⟩
      · rintro ⟨⟨-, hcopied⟩, out, hout, rfl⟩
        obtain ⟨⟨hvlen, hvalue⟩, hklen⟩ := hcopied hstart
        exact ⟨_, ⟨hvlen, if_pos hvalue⟩, (), hklen, out, hout, rfl⟩
  · rw [scanFrom, if_neg hge.not_gt]
    constructor
    · intro h
      exact ⟨0, hzero.mpr (.inl hge), (Except.ok.inj h).symm⟩
    · rintro ⟨n, hto, rfl⟩
      cases n with
      | zero => rfl
      | succ n => exact absurd (rowsTo_succ_iff.mp hto).1 hge.not_gt

end Walks

-- ---------------------------------------------------------------------------
-- Restarts
-- ---------------------------------------------------------------------------

/-- The number of restarts, in the last four bytes of a block of `size` bytes. -/
def restartCount (block : Bytes) (size : Nat) : Nat := leAt 4 block (size - 4)

/-- Where its restart array starts. -/
def restartsAt (block : Bytes) (size : Nat) : Nat := size - 4 - restartCount block size * 4

/-- The offset in slot `idx` of the array. -/
def restartOffset (block : Bytes) (size idx : Nat) : Nat :=
  leAt 4 block (restartsAt block size + idx * 4)

/-- The key at the restart in slot `idx` lies inside the block, as far as a comparison with
a key of `n` bytes reads it. -/
def RestartInside (block : Bytes) (size idx n : Nat) : Prop :=
  restartOffset block size idx + 4 ≤ block.length ∧
    restartOffset block size idx + 4 + min (leAt 4 block (restartOffset block size idx)) n ≤
      block.length

/-- A search for `key` in a block of `size` bytes comes to the slots of `[l, r)`. -/
def Searches (block : Bytes) (size : Nat) (key : Bytes) (l r : Nat) : Prop :=
  BinarySearch.Visits (restartBefore block (restartsAt block size) key) 0
    (restartCount block size) l r

/-- A block of `size` bytes in which a reader stays when it looks for `key` and goes on
from there, past records with `goes` to one with `ends`. -/
structure Decodable (block : Bytes) (size : Nat) (key : Bytes) (goes ends : EntryHead → Prop) :
    Prop where
  count_inside : 4 ≤ size
  size_le : size ≤ block.length
  /-- from `2 ^ 30` restarts on the length of the array wraps around -/
  array_inside : restartCount block size * 4 + 4 ≤ size
  /-- every restart that the search for the key looks at -/
  probes : ∀ l r, Searches block size key l r → l < r →
    RestartInside block size ((l + r) / 2) key.length
  /-- the records from where it ends -/
  records : ∀ l, Searches block size key l l →
    RecordsFrom block (restartsAt block size) goes ends (restartOffset block size (l - 1))

section Search

variable {block key : Bytes} {size : Nat}

/-- Finding the restart array is arithmetic and one read. -/
theorem restartArray_neverThrows (block : Bytes) (size : Nat) :
    NeverThrows (restartArray block size) := by
  refine (subLen_neverThrows _ _).bind fun countAt => (readLE_neverThrows 4 _ _).bind fun n => ?_
  split
  · exact fun what h => by cases h
  · exact (subLen_neverThrows _ _).bind fun _ => .ok _

/-- A test of the search reads a slot and a key. -/
theorem restartBefore_neverThrows (block : Bytes) (restartsPtr : Nat) (key : Bytes) (mid : Nat) :
    NeverThrows (restartBefore block restartsPtr key mid) :=
  (readLE_neverThrows 4 _ _).bind fun _ => (readLE_neverThrows 4 _ _).bind fun _ =>
    (slice_neverThrows _ _ _).bind fun _ => .ok _

/-- So the search cannot throw. -/
theorem seekRestart_neverThrows (block : Bytes) (restartsPtr count : Nat) (key : Bytes) :
    NeverThrows (seekRestart block restartsPtr count key) :=
  (bsearch_neverThrows (restartBefore_neverThrows block restartsPtr key) 0 count).bind fun _ =>
    readLE_neverThrows 4 _ _

/-- The array is found when it lies inside the block, and the number of its slots too. -/
theorem restartArray_ok_iff (hsize : size < 2 ^ 32) {p : Nat × Nat} :
    restartArray block size = .ok p ↔ 4 ≤ size ∧ size ≤ block.length ∧
      restartCount block size * 4 + 4 ≤ size ∧
      p = (restartsAt block size, restartCount block size) := by
  rw [restartArray, restartsAt, restartCount]
  -- each check in turn: four bytes for the count, the bytes of the block, room for the array
  by_cases hge : 4 ≤ size
  · rw [subLen_eq hge, Except.ok_bind]
    by_cases hle : size ≤ block.length
    · rw [readLE_ok_iff.mpr ⟨by omega, rfl⟩, Except.ok_bind]
      generalize leAt 4 block (size - 4) = count
      by_cases harray : count * 4 + 4 ≤ size
      · rw [if_neg (by omega)]
        simp [subLen_eq (show count * 4 ≤ size - 4 by omega), hge, hle, harray, eq_comm]
      · split
        · simp [harray, throw, throwThe, MonadExceptOf.throw]
        · simp [subLen, show ¬ count * 4 ≤ size - 4 by omega, harray]
    · cases hread : readLE 4 block (size - 4) with
      | error f => simp [hle]
      | ok n =>
        have := (readLE_ok_iff.mp hread).1
        omega
  · simp [subLen, hge]

/-- A slot of the array is read. -/
theorem readRestartOffset (hle : size ≤ block.length)
    (harray : restartCount block size * 4 + 4 ≤ size) {idx : Nat}
    (hidx : idx ≤ restartCount block size) :
    readLE 4 block (restartsAt block size + idx * 4) = .ok (restartOffset block size idx) := by
  refine readLE_ok_iff.mpr ⟨?_, rfl⟩
  rw [restartsAt]
  omega

/-- A test succeeds when the key at the restart lies inside, as far as it is compared. -/
theorem restartBefore_ok_iff (hle : size ≤ block.length)
    (harray : restartCount block size * 4 + 4 ≤ size) {idx : Nat}
    (hidx : idx ≤ restartCount block size) :
    (∃ b, restartBefore block (restartsAt block size) key idx = .ok b) ↔
      RestartInside block size idx key.length := by
  rw [restartBefore, readRestartOffset hle harray hidx, Except.ok_bind, RestartInside]
  generalize restartOffset block size idx = off
  constructor
  · rintro ⟨b, hb⟩
    obtain ⟨klen, hklen, hb⟩ := Except.bind_eq_ok_iff.mp hb
    obtain ⟨midKey, hmidKey, -⟩ := Except.bind_eq_ok_iff.mp hb
    obtain ⟨hoff, rfl⟩ := readLE_ok_iff.mp hklen
    exact ⟨hoff, (slice_ok hmidKey).1⟩
  · rintro ⟨hoff, hkey⟩
    obtain ⟨midKey, hmidKey, -⟩ := exists_slice block (off + 4) _ hkey
    rw [readLE_ok_iff.mpr ⟨hoff, rfl⟩, Except.ok_bind, hmidKey]
    exact ⟨_, rfl⟩

/-- Where the walk starts, for a search that ends at `left`. -/
theorem seekRestart_ok_iff (hle : size ≤ block.length)
    (harray : restartCount block size * 4 + 4 ≤ size) (key : Bytes) (ptr : Nat) :
    seekRestart block (restartsAt block size) (restartCount block size) key = .ok ptr ↔
      ∃ left, BinarySearch.bsearch (restartBefore block (restartsAt block size) key) 0
        (restartCount block size) = .ok left ∧ ptr = restartOffset block size (left - 1) := by
  rw [seekRestart, Except.bind_eq_ok_iff]
  apply exists_congr
  intro left
  refine and_congr_right fun hleft => ?_
  have hidx : (if left > 0 then left - 1 else 0) = left - 1 := by split <;> omega
  have hbound := ((BinarySearch.visits_result (Nat.zero_le _) hleft).bounds (Nat.zero_le _)).2.2
  simp only [hidx]
  rw [readRestartOffset hle harray (by omega), Except.ok.injEq, eq_comm]

/-- A search comes to its result, and to no other empty interval. -/
theorem bsearch_eq_ok_iff {left : Nat} :
    BinarySearch.bsearch (restartBefore block (restartsAt block size) key) 0
      (restartCount block size) = .ok left ↔ Searches block size key left left := by
  constructor
  · exact BinarySearch.visits_result (Nat.zero_le _)
  · intro h
    rw [BinarySearch.Visits.bsearch_eq h, BinarySearch.bsearch, if_neg (lt_irrefl left)]

/-- Both readers find the array, search it and walk; what the walk needs is their own. The
search cannot throw, so it has to succeed. -/
theorem decode_iff {α : Type} {throws : Prop} {walk : Nat → Nat → Except Fault α}
    {goes ends : EntryHead → Prop} (hsize : size < 2 ^ 32)
    (hwalk : ∀ limit off,
      Within throws (walk limit off) ↔ RecordsFrom block limit goes ends off) :
    Within throws (restartArray block size >>= fun p =>
      seekRestart block p.1 p.2 key >>= fun ptr => walk p.1 ptr) ↔
      Decodable block size key goes ends := by
  rw [within_bind_iff, (restartArray_neverThrows block size).within_iff]
  simp only [within_bind_iff, (seekRestart_neverThrows block _ _ key).within_iff, hwalk,
    restartArray_ok_iff hsize]
  -- one direction reads the condition off the run, the other one builds the run
  constructor
  · rintro ⟨⟨_, hcount, hle, hinside, rfl⟩, hseek⟩
    obtain ⟨⟨ptr, hptr⟩, hrecords⟩ := hseek _ ⟨hcount, hle, hinside, rfl⟩
    obtain ⟨left, hleft, rfl⟩ := (seekRestart_ok_iff hle hinside key ptr).mp hptr
    -- what the binary search asks for at the restarts that it visits
    have hvisits := (BinarySearch.bsearch_ok_iff (P := fun left =>
      RecordsFrom block (restartsAt block size) goes ends (restartOffset block size (left - 1)))
      (Nat.zero_le _)).mp ⟨left, hleft, hrecords _ hptr⟩
    refine ⟨hcount, hle, hinside, fun l r h hlt => ?_, fun l h => (hvisits l l h).2 rfl⟩
    have hbounds := BinarySearch.Visits.bounds h (Nat.zero_le _)
    exact (restartBefore_ok_iff hle hinside (by omega)).mp ((hvisits l r h).1 hlt)
  · intro h
    obtain ⟨left, hleft, hrecords⟩ := (BinarySearch.bsearch_ok_iff (Nat.zero_le _)).mpr
      fun l r hv => ⟨fun hlt => (restartBefore_ok_iff h.size_le h.array_inside
        (by have := hv.bounds (Nat.zero_le _); omega)).mpr (h.probes l r hv hlt),
        fun heq => h.records l (heq ▸ hv)⟩
    refine ⟨⟨_, h.count_inside, h.size_le, h.array_inside, rfl⟩, ?_⟩
    rintro _ ⟨-, -, -, rfl⟩
    have hseek := seekRestart_ok_iff h.size_le h.array_inside key
    refine ⟨⟨_, (hseek _).mpr ⟨left, hleft, rfl⟩⟩, fun ptr hptr => ?_⟩
    obtain ⟨left', hleft', rfl⟩ := (hseek ptr).mp hptr
    obtain rfl := Except.ok.inj (hleft.symm.trans hleft')
    exact hrecords

variable [m : Machine] {throws : Prop}

/-- **Searching a block** that may be anything. -/
theorem findBlock_within_iff (hsize : size < 2 ^ 32) :
    Within throws (findBlock block size key) ↔
      Decodable block size key (findGoes key) (findEnds m throws block key) :=
  decode_iff hsize fun _ _ => findFrom_within_iff key

/-- **Scanning a block** that may be anything. -/
theorem scanBlockRows_within_iff (hsize : size < 2 ^ 32) (stop : Bytes) :
    Within throws (scanBlockRows block size key stop) ↔
      Decodable block size key (scanGoes m block key stop) (scanEnds m throws block key stop) :=
  decode_iff hsize fun _ _ => scanFrom_within_iff key stop

/-- The rows of a scan of everything, in a block in which it stays. -/
theorem Decodable.scanBlockRows_eq_ok_iff {goes ends : EntryHead → Prop} (hsize : size < 2 ^ 32)
    (h : Decodable block size [] goes ends) {stop : Bytes} {rows : List Entry} :
    scanBlockRows block size [] stop = .ok rows ↔ ∃ l n, Searches block size [] l l ∧
      RowsTo m block (restartsAt block size) stop (restartOffset block size (l - 1)) n ∧
      rows = rowsFrom block (restartOffset block size (l - 1)) n := by
  have harray := (restartArray_ok_iff hsize).mpr ⟨h.count_inside, h.size_le, h.array_inside, rfl⟩
  rw [scanBlockRows, harray, Except.ok_bind]
  simp only [Except.bind_eq_ok_iff, seekRestart_ok_iff h.size_le h.array_inside,
    bsearch_eq_ok_iff, scanFrom_eq_ok_iff]
  constructor
  · rintro ⟨_, ⟨l, hl, rfl⟩, n, hto, rfl⟩
    exact ⟨l, n, hl, hto, rfl⟩
  · rintro ⟨l, n, hl, hto, rfl⟩
    exact ⟨_, ⟨l, hl, rfl⟩, n, hto, rfl⟩

end Search

end SSTable

end Zenith
