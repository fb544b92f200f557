import Zenith.SSTable.UntrustedBlock

/-!
# Zenith — opening a file that may be anything

The constructor checks that a file is as long as a footer and has the magic number, and
nothing else: behind these two checks every offset, count and length of the file is used as
it is. Many of them end in an exception all the same, because no memory can be had for what
they ask for or because the read fails. The others are used on the bytes that came back,
which may be fewer than were asked for. What the bytes of a file have to be for the
constructor, lookups and scans to throw or to stay inside the buffers they have read is
`WellFormed`.

The conditions follow the three things a caller can do. The constructor loads the filter and
the index, or scans the one block there is when there is no index. A lookup searches one
block, to which the index leads it. A scan reads one block after the other, up to the first
one that starts behind its range or that it throws in. The two block readers differ in one
check: `find_in_block` gives up on a block that ends behind the data, `scan_block` decodes
it.

Everything is stated for an arbitrary machine. The one thing that is asked of it is that no
allocation reaches `2 ^ 61` bytes (`Bounded`), so that the bits of a filter can be counted
in 64 bits. Of the file only its length is bounded, by the largest one that a file system
can hold.

A condition has one clause for each step that could go wrong, and it applies only where the
run comes to that step. So a file whose filter is too long for the memory of the machine is
rejected whatever its index is, and the clauses about the index say nothing of it. On
another machine the same file may be misread.

The constructor of a file without an index scans it, and what that scan returns decides the
key range, by which later scans are cut short. These rows are read off the file as well
(`FirstRows`).

Main results:

* `reads_within_iff`: what lookups and scans need of a table, whatever it was opened from;
* `corrupt_tables_rejected_iff`: opening a file and reading from it ends in an exception or
  stays inside what was read, exactly when the file is `WellFormed`.
-/

namespace Zenith

open Bytes

namespace SSTable

-- ---------------------------------------------------------------------------
-- Blocks of a file
-- ---------------------------------------------------------------------------

/-- The size field of the block at `offset`. -/
def sizeAt (file : Bytes) (offset : Nat) : Nat := leAt 4 file (offset + 4)

/-- The bytes of this block that a read returns. -/
def blockAt (m : Machine) (file : Bytes) (offset : Nat) : Bytes :=
  readBytes file offset (m.atMost (sizeAt file offset))

/-- What both block readers need at `offset` in front of the block itself. -/
structure HeaderInside (m : Machine) (throws : Prop) (file : Bytes) (dataEnd offset : Nat)
    (block : Prop) : Prop where
  /-- `offset + 8` has wrapped: only the exception of the read is left -/
  wraps : 2 ^ 64 ≤ offset + 8 →
    throws ∧ m.refuses offset = true ∧ (offset + 8) % 2 ^ 64 ≤ dataEnd
  refused : offset + 8 < 2 ^ 64 → offset + 8 ≤ dataEnd → m.refuses offset = true → throws
  header : offset + 8 < 2 ^ 64 → offset + 8 ≤ dataEnd → m.refuses offset = false →
    offset + 8 ≤ file.length ∧ block

/-- The read of the block throws, or returns bytes that can be decoded. -/
def BlockInside (m : Machine) (throws : Prop) (file : Bytes) (offset : Nat) (key : Bytes)
    (goes ends : EntryHead → Prop) : Prop :=
  (m.Reads offset (sizeAt file offset) →
    Decodable (blockAt m file offset) (sizeAt file offset) key goes ends) ∧
    (¬ m.Reads offset (sizeAt file offset) → throws)

/-- What `scan_block` needs at `offset`. -/
def ScanInside (m : Machine) (throws : Prop) (file : Bytes) (dataEnd offset : Nat)
    (start stop : Bytes) : Prop :=
  HeaderInside m throws file dataEnd offset
    (BlockInside m throws file offset start (scanGoes m (blockAt m file offset) start stop)
      (scanEnds m throws (blockAt m file offset) start stop))

/-- What `find_in_block` needs: a block that ends behind the data may be anything. -/
def FindInside (m : Machine) (throws : Prop) (file : Bytes) (dataEnd offset : Nat)
    (key : Bytes) : Prop :=
  HeaderInside m throws file dataEnd offset (offset + sizeAt file offset ≤ dataEnd →
    BlockInside m throws file offset key (findGoes key)
      (findEnds m throws (blockAt m file offset) key))

/-- The size field has 32 bits. -/
theorem sizeAt_lt (file : Bytes) (offset : Nat) : sizeAt file offset < 2 ^ 32 := leAt_lt 4 _ _

/-- A read returns what is there. -/
theorem length_readBytes (file : Bytes) (offset n : Nat) :
    (readBytes file offset n).length = min n (file.length - offset) := by
  rw [readBytes, List.length_take, List.length_drop]

/-- The size field of a header that was read is that of the file. -/
theorem leAt_header (file : Bytes) (offset : Nat) :
    leAt 4 (readBytes file offset 8) 4 = sizeAt file offset := by
  rw [leAt, readBytes, List.drop_take, List.drop_drop, List.take_take, sizeAt, leAt]
  rfl

section Block

variable [m : Machine] {throws : Prop} {t : SSTable} {file : Bytes} {offset : Nat} {key : Bytes}

/-- **A read of the file**, and what is done with its bytes. -/
theorem within_read_bind_iff {α : Type} {n : Nat} {next : Bytes → Except Fault α} :
    Within throws (m.read file offset n >>= next) ↔
      (m.Reads offset n → Within throws (next (readBytes file offset (m.atMost n)))) ∧
        (¬ m.Reads offset n → throws) := by
  by_cases hreads : m.Reads offset n
  · rw [m.read_eq file hreads, Except.ok_bind]
    simp [hreads]
  · obtain ⟨what, hwhat⟩ := m.read_throws file hreads
    rw [hwhat, Except.error_bind, within_thrown]
    simp [hreads]

/-- Both readers begin with the header of the block, of which they take the size. -/
theorem header_within_iff {α : Type} (hfile : file.length ≤ maxFileSize) {skipped : α}
    {dataEnd : Nat} {next : Bytes → Except Fault α} {block : Prop}
    (hnext : ∀ header throws, Within throws (next header) → 8 ≤ header.length)
    (hblock : offset + 8 ≤ file.length →
      (Within throws (next (readBytes file offset 8)) ↔ block)) :
    Within throws (wrapping (offset + 8 < 2 ^ 64)
      (if (offset + 8) % 2 ^ 64 > dataEnd then pure skipped
        else m.read file offset 8 >>= next)) ↔
      HeaderInside m throws file dataEnd offset block := by
  have hpage : m.atMost 8 = 8 := m.atMost_page 8 (by norm_num)
  have hreads : m.Reads offset 8 ↔ m.refuses offset = false :=
    ⟨And.right, fun h => ⟨.inl (by norm_num), h⟩⟩
  -- a header that is used was in the file
  have hlen : ∀ {p}, Within p (next (readBytes file offset 8)) → offset + 8 ≤ file.length := by
    intro p h
    have := hnext _ _ h
    rw [length_readBytes] at this
    omega
  rw [within_wrapping_iff, ← within_false_iff]
  rcases Nat.lt_or_ge (offset + 8) (2 ^ 64) with hlt | hge
  · rw [Nat.mod_eq_of_lt hlt]
    simp only [hlt, not_true, false_imp_iff, and_true]
    by_cases hend : offset + 8 > dataEnd
    · rw [if_pos hend]
      exact ⟨fun _ => ⟨fun h => absurd hlt h.not_gt, fun _ h => absurd h hend.not_ge,
        fun _ h => absurd h hend.not_ge⟩, fun _ => trivial⟩
    · rw [if_neg hend, within_read_bind_iff, hreads, hpage, Bool.not_eq_false]
      constructor
      · rintro ⟨hok, hrefused⟩
        refine ⟨fun h => absurd hlt h.not_gt, fun _ _ => hrefused, fun _ _ h => ?_⟩
        have hin := hlen (hok h)
        exact ⟨hin, (hblock hin).mp (hok h)⟩
      · intro h
        refine ⟨fun hok => ?_, h.refused hlt (not_lt.mp hend)⟩
        obtain ⟨hin, hrest⟩ := h.header hlt (not_lt.mp hend) hok
        exact (hblock hin).mpr hrest
  · -- the sum has wrapped, and no byte of the file is that far behind
    have hbehind : ∀ p, ¬ Within p (next (readBytes file offset 8)) := by
      intro p h
      have := hlen h
      unfold maxFileSize at hfile
      omega
    simp only [hge.not_gt, not_false_iff, true_imp_iff]
    have hrhs : HeaderInside m throws file dataEnd offset block ↔
        throws ∧ m.refuses offset = true ∧ (offset + 8) % 2 ^ 64 ≤ dataEnd :=
      ⟨fun h => h.wraps hge, fun h => ⟨fun _ => h, fun h => absurd h hge.not_gt,
        fun h => absurd h hge.not_gt⟩⟩
    rw [hrhs]
    generalize (offset + 8) % 2 ^ 64 = end8
    by_cases hend : end8 > dataEnd
    · rw [if_pos hend]
      simp [hend]
    · rw [if_neg hend, within_read_bind_iff, within_read_bind_iff, hreads, hpage]
      cases m.refuses offset <;> simp [hbehind, not_lt.mp hend]

/-- The read of the block, and what is done with its bytes. -/
theorem block_within_iff {α : Type} {decode : Bytes → Except Fault α}
    {goes ends : EntryHead → Prop}
    (hdecode : Within throws (decode (blockAt m file offset)) ↔
      Decodable (blockAt m file offset) (sizeAt file offset) key goes ends) :
    Within throws (m.read file offset (sizeAt file offset) >>= decode) ↔
      BlockInside m throws file offset key goes ends := by
  rw [within_read_bind_iff, BlockInside, ← blockAt, hdecode]

/-- What `scan_block` needs is what `ScanInside` says. -/
theorem scanBlock_within_iff (hfile : t.file.length ≤ maxFileSize) (start stop : Bytes) :
    Within throws (t.scanBlock offset start stop) ↔
      ScanInside m throws t.file t.dataEnd offset start stop := by
  apply header_within_iff hfile
  · intro header p h
    exact (within_readLE_bind_iff.mp h).1
  · intro hlen
    rw [within_readLE_bind_iff, leAt_header, length_readBytes, and_iff_right (by omega)]
    exact block_within_iff (scanBlockRows_within_iff (sizeAt_lt _ _) stop)

/-- In a file that a file system can hold the end of a block does not wrap. -/
theorem findInBlock_within_iff (hfile : t.file.length ≤ maxFileSize) (key : Bytes) :
    Within throws (t.findInBlock offset key) ↔
      FindInside m throws t.file t.dataEnd offset key := by
  apply header_within_iff hfile
  · intro header p h
    exact (within_readLE_bind_iff.mp (within_readLE_bind_iff.mp h).2).1
  · intro hlen
    have hsize := sizeAt_lt t.file offset
    -- sizes are below `2 ^ 32` and the file is short
    have hadd : addU64 offset (sizeAt t.file offset) = .ok (offset + sizeAt t.file offset) := by
      apply if_pos
      unfold maxFileSize at hfile
      omega
    rw [within_readLE_bind_iff, within_readLE_bind_iff, leAt_header, length_readBytes,
      and_iff_right (by omega), and_iff_right (by omega), hadd, Except.ok_bind]
    by_cases hend : offset + sizeAt t.file offset > t.dataEnd
    · rw [if_pos hend]
      exact iff_of_true trivial fun h => absurd h hend.not_ge
    · rw [if_neg hend, forall_prop_of_true (not_lt.mp hend)]
      exact block_within_iff (findBlock_within_iff hsize)

end Block

-- ---------------------------------------------------------------------------
-- Lookups and scans
-- ---------------------------------------------------------------------------

/-- The index from the entry on that a search for `key` leads to. Without an index there is
one block, at the front of the file, and no key in front of it. -/
def blocksFrom (index : List IndexEntry) (key : Bytes) : List IndexEntry :=
  if index = [] then [⟨[], 0⟩] else seekIndex index key

/-- Where a lookup of `key` searches. -/
def lookupOffset (index : List IndexEntry) (key : Bytes) : Nat :=
  ((blocksFrom index key).head?.map (·.offset)).getD 0

/-- Every block that a scan comes to stays inside. It comes to the next one if that does
not start behind the range, and only if it has not thrown before. -/
def ScansInside (m : Machine) (t : SSTable) (start stop : Bytes) : List IndexEntry → Prop
  | [] => True
  | ie :: rest => ie.minKey ≤ stop →
      ScanInside m True t.file t.dataEnd ie.offset start stop ∧
        (ScanInside m False t.file t.dataEnd ie.offset start stop →
          ScansInside m t start stop rest)

/-- Every lookup and scan of the table throws or stays inside what it reads. -/
structure TableInside (m : Machine) (t : SSTable) : Prop where
  lookups : ∀ key, mayContain t.bloomFilter key = true →
    FindInside m True t.file t.dataEnd (lookupOffset t.index key) key
  /-- a scan of a range that does not miss the one of the table -/
  scans : ∀ start stop, start ≤ stop → t.metaData.maxKey = [] ∨ start ≤ t.metaData.maxKey →
    t.metaData.minKey ≤ stop → ScansInside m t start stop (blocksFrom t.index start)

section Table

variable [m : Machine] {t : SSTable}

/-- The loop over the index. By induction on the entries that are left. -/
theorem scanIndex_within_iff (hfile : t.file.length ≤ maxFileSize) (start stop : Bytes)
    (index : List IndexEntry) :
    Within True (t.scanIndex start stop index) ↔ ScansInside m t start stop index := by
  induction index with
  | nil => exact Iff.rfl
  | cons ie rest ih =>
    rw [scanIndex, ScansInside]
    by_cases hstop : ie.minKey > stop
    · rw [if_pos hstop]
      exact iff_of_true trivial fun h => absurd h hstop.not_ge
    · rw [if_neg hstop, forall_prop_of_true (not_lt.mp hstop), within_bind_iff]
      -- what the rest of the loop does has nothing to do with the rows so far
      have hrest : ∀ rows, Within True (t.scanIndex start stop rest >>= fun more =>
          pure (rows ++ more)) ↔ ScansInside m t start stop rest := by
        intro rows
        rw [within_bind_iff, ih]
        simp
      simp only [hrest, ← scanBlock_within_iff hfile, within_false_iff, forall_exists_index]

/-- A lookup that passes the filter searches the block it is led to. -/
theorem get_eq_findInBlock_head (hbits : t.bloomFilter.length * 8 < 2 ^ 64) {key : Bytes}
    (hmay : mayContain t.bloomFilter key = true) :
    t.get key = t.findInBlock (lookupOffset t.index key) key := by
  rw [SSTable.get, if_neg hbits.not_ge, if_neg (by simp [hmay]), lookupOffset, blocksFrom]
  split
  · next hseek =>
    rw [hseek]
    split <;> rfl
  · next ie rest hseek =>
    have hmem : ie ∈ t.index := seekIndex_subset t.index key (by rw [hseek]; simp)
    rw [if_neg (List.ne_nil_of_mem hmem), hseek]
    rfl

/-- What is not scanned because of the key range of the table is not read at all. -/
theorem scan_within_iff (hfile : t.file.length ≤ maxFileSize) (start stop : Bytes) :
    Within True (t.scan start stop) ↔
      (start ≤ stop → t.metaData.maxKey = [] ∨ start ≤ t.metaData.maxKey →
        t.metaData.minKey ≤ stop → ScansInside m t start stop (blocksFrom t.index start)) := by
  rw [SSTable.scan]
  by_cases hempty : start > stop
  · rw [if_pos hempty]
    exact iff_of_true trivial fun h => absurd h hempty.not_ge
  rw [if_neg hempty, forall_prop_of_true (not_lt.mp hempty)]
  by_cases hmax : t.metaData.maxKey ≠ [] ∧ start > t.metaData.maxKey
  · rw [if_pos hmax]
    exact iff_of_true trivial fun h => absurd h (not_or.mpr ⟨hmax.1, hmax.2.not_ge⟩)
  rw [if_neg hmax, forall_prop_of_true (by
    rw [not_and_or, not_ne_iff, gt_iff_lt, not_lt] at hmax
    exact hmax)]
  by_cases hmin : t.metaData.minKey ≠ [] ∧ stop < t.metaData.minKey
  · rw [if_pos hmin]
    exact iff_of_true trivial fun h => absurd h hmin.2.not_ge
  rw [if_neg hmin, forall_prop_of_true (not_lt.mp fun h => hmin
    ⟨fun hnil => absurd (hnil ▸ h) (List.not_lt_nil stop), h⟩), blocksFrom]
  by_cases hindex : t.index = []
  · -- the one block, which starts behind no range
    rw [if_pos hindex, if_pos hindex, scanBlock_within_iff hfile, ScansInside, ScansInside,
      forall_prop_of_true (not_lt.mp (List.not_lt_nil stop))]
    simp
  · rw [if_neg hindex, if_neg hindex, scanIndex_within_iff hfile]

/-- **What lookups and scans need of a table**, whatever it was opened from. -/
theorem reads_within_iff (hfile : t.file.length ≤ maxFileSize)
    (hbits : t.bloomFilter.length * 8 < 2 ^ 64) :
    ((∀ key, Within True (t.get key)) ∧ ∀ start stop, Within True (t.scan start stop)) ↔
      TableInside m t := by
  have hget : ∀ key, Within True (t.get key) ↔ (mayContain t.bloomFilter key = true →
      FindInside m True t.file t.dataEnd (lookupOffset t.index key) key) := by
    intro key
    cases hmay : mayContain t.bloomFilter key with
    | false =>
      rw [SSTable.get, if_neg hbits.not_ge, if_pos hmay]
      simp
    | true =>
      rw [get_eq_findInBlock_head hbits hmay, findInBlock_within_iff hfile]
      simp
  simp only [hget, scan_within_iff hfile]
  exact ⟨fun h => ⟨h.1, h.2⟩, fun h => ⟨h.lookups, h.scans⟩⟩

end Table

-- ---------------------------------------------------------------------------
-- The index section
-- ---------------------------------------------------------------------------

/-- The index entry at `p`, as far as its bytes are there. -/
def indexEntryAt (buf : Bytes) (p : Nat) : IndexEntry :=
  ⟨(buf.drop (p + 4)).take (leAt 4 buf p), leAt 8 buf (p + 4 + leAt 4 buf p)⟩

/-- Where the next one starts. -/
def indexEntryEnd (buf : Bytes) (p : Nat) : Nat := p + 4 + leAt 4 buf p + 8

/-- Where the `i`-th entry starts, counted from the one at `p`. -/
def indexEntryStart (buf : Bytes) (p i : Nat) : Nat := (indexEntryEnd buf)^[i] p

/-- The entries of an index of `n` blocks, from `p` on. -/
def indexEntriesFrom (buf : Bytes) (p n : Nat) : List IndexEntry :=
  (List.range n).map fun i => indexEntryAt buf (indexEntryStart buf p i)

/-- Memory can be had for the key of this entry, and the entry lies inside. -/
def EntryLoads (m : Machine) (buf : Bytes) (p : Nat) : Prop :=
  m.grants (leAt 4 buf p) = true ∧ indexEntryEnd buf p ≤ buf.length

/-- All `n` entries can be loaded. -/
def IndexLoads (m : Machine) (buf : Bytes) (p n : Nat) : Prop :=
  ∀ i < n, EntryLoads m buf (indexEntryStart buf p i)

/-- The first `k` entries can be loaded. They are all, or there is one behind them whose
key no memory can be had for. -/
def IndexInside (m : Machine) (buf : Bytes) (p n : Nat) : Prop :=
  ∃ k ≤ n, IndexLoads m buf p k ∧ (k < n →
    indexEntryStart buf p k + 4 ≤ buf.length ∧
      m.grants (leAt 4 buf (indexEntryStart buf p k)) = false)

section Index

variable {buf : Bytes}

@[simp] theorem indexEntryStart_zero (p : Nat) : indexEntryStart buf p 0 = p := rfl

@[simp] theorem indexEntryStart_succ (p i : Nat) :
    indexEntryStart buf p (i + 1) = indexEntryStart buf (indexEntryEnd buf p) i := rfl

variable [m : Machine]

/-- One entry more. -/
theorem indexLoads_succ_iff {p n : Nat} : IndexLoads m buf p (n + 1) ↔
    EntryLoads m buf p ∧ IndexLoads m buf (indexEntryEnd buf p) n := by
  rw [IndexLoads, IndexLoads, Nat.forall_lt_succ_left]
  simp only [indexEntryStart_zero, indexEntryStart_succ]

/-- The first entry, and those behind it when it can be loaded. -/
theorem indexInside_succ_iff {p n : Nat} : IndexInside m buf p (n + 1) ↔
    p + 4 ≤ buf.length ∧ (m.grants (leAt 4 buf p) = true →
      indexEntryEnd buf p ≤ buf.length ∧ IndexInside m buf (indexEntryEnd buf p) n) := by
  constructor
  · rintro ⟨k, hk, hloads, hrefused⟩
    cases k with
    | zero =>
      obtain ⟨hlen, hno⟩ := hrefused (Nat.succ_pos n)
      exact ⟨hlen, fun hyes => absurd (hno.symm.trans hyes) Bool.false_ne_true⟩
    | succ k =>
      obtain ⟨⟨-, hend⟩, hrest⟩ := indexLoads_succ_iff.mp hloads
      refine ⟨?_, fun _ => ⟨hend, k, Nat.le_of_succ_le_succ hk, hrest, fun hlt =>
        hrefused (Nat.succ_lt_succ hlt)⟩⟩
      unfold indexEntryEnd at hend
      omega
  · rintro ⟨hlen, hrest⟩
    by_cases hyes : m.grants (leAt 4 buf p) = true
    · obtain ⟨hend, k, hk, hloads, hrefused⟩ := hrest hyes
      exact ⟨k + 1, Nat.succ_le_succ hk, indexLoads_succ_iff.mpr ⟨⟨hyes, hend⟩, hloads⟩,
        fun hlt => hrefused (Nat.lt_of_succ_lt_succ hlt)⟩
    · exact ⟨0, Nat.zero_le _, fun i hi => absurd hi (Nat.not_lt_zero i),
        fun _ => ⟨hlen, Bool.not_eq_true _ ▸ hyes⟩⟩

/-- **What the index loop needs.** By induction on the entries that are left. -/
theorem readIndex_within_iff (n p : Nat) :
    Within True (readIndex buf n p) ↔ IndexInside m buf p n := by
  induction n generalizing p with
  | zero => exact iff_of_true trivial ⟨0, le_rfl, fun i hi => absurd hi (Nat.not_lt_zero i),
      fun hlt => absurd hlt (lt_irrefl 0)⟩
  | succ n ih =>
    rw [readIndex, within_readLE_bind_iff, indexInside_succ_iff]
    refine and_congr_right fun _ => ?_
    rw [within_copyOut_bind_iff, within_readLE_bind_iff, within_bind_iff, ih]
    simp only [within_pure, implies_true, and_true]
    refine imp_congr_right fun _ => ?_
    -- the key ends in front of the offset, so it is inside when that is
    unfold indexEntryEnd
    exact ⟨fun h => h.2, fun h => ⟨by omega, h⟩⟩

/-- What it returns. -/
theorem readIndex_eq_ok_iff {n p : Nat} {index : List IndexEntry} :
    readIndex buf n p = .ok index ↔ IndexLoads m buf p n ∧ index = indexEntriesFrom buf p n := by
  induction n generalizing p index with
  | zero =>
    rw [readIndex, Except.ok.injEq, eq_comm]
    exact (and_iff_right fun i hi => absurd hi (Nat.not_lt_zero i)).symm
  | succ n ih =>
    -- the first entry, and those behind it
    have hcons : indexEntriesFrom buf p (n + 1) =
        indexEntryAt buf p :: indexEntriesFrom buf (indexEntryEnd buf p) n := by
      rw [indexEntriesFrom, List.range_succ_eq_map, List.map_cons, List.map_map]
      rfl
    rw [indexLoads_succ_iff, hcons, readIndex]
    simp only [Except.bind_eq_ok_iff, copyOut_ok_iff, ih]
    constructor
    · rintro ⟨_, hklen, key, ⟨hgrants, hkey⟩, _, hoff, _, ⟨hloads, rfl⟩, hr⟩
      obtain ⟨-, rfl⟩ := readLE_ok_iff.mp hklen
      obtain ⟨hend, rfl⟩ := readLE_ok_iff.mp hoff
      obtain ⟨-, rfl⟩ := slice_ok hkey
      obtain rfl := Except.ok.inj hr
      exact ⟨⟨⟨hgrants, hend⟩, hloads⟩, rfl⟩
    · rintro ⟨⟨⟨hgrants, hend⟩, hloads⟩, rfl⟩
      unfold indexEntryEnd at hend
      exact ⟨_, readLE_ok_iff.mpr ⟨by omega, rfl⟩, _, ⟨hgrants, if_pos (by omega)⟩, _,
        readLE_ok_iff.mpr ⟨hend, rfl⟩, _, ⟨hloads, rfl⟩, rfl⟩

end Index

-- ---------------------------------------------------------------------------
-- The constructor
-- ---------------------------------------------------------------------------

/-- The fields of the footer: the end of the data, the offsets of filter and index, and
the magic number. -/
def footerField (file : Bytes) (i : Nat) : Nat := leAt 8 file (file.length - footerSize + 8 * i)

/-- How long the filter is, by the footer. -/
def filterLength (file : Bytes) : Nat := footerField file 2 - footerField file 1

/-- What the constructor knows before it comes to the index. -/
def footerTable (file : Bytes) : SSTable :=
  ⟨file, ⟨[], [], file.length, 0⟩, footerField file 0, footerField file 1, footerField file 2, [],
    readBytes file (footerField file 1) (filterLength file)⟩

/-- There is no filter, or nothing throws while it is loaded. -/
def FilterLoads (m : Machine) (file : Bytes) : Prop :=
  footerField file 1 < footerField file 2 →
    m.Reads (footerField file 1) (filterLength file) ∧ m.grants (filterLength file) = true

/-- The read of a filter that is loaded returned all of it. -/
def FilterInside (m : Machine) (file : Bytes) : Prop :=
  footerField file 1 < footerField file 2 → FilterLoads m file →
    filterLength file ≤
      (readBytes file (footerField file 1) (m.atMost (filterLength file))).length

/-- The number of bytes that are asked for as the index. It wraps around when the index
starts behind the footer. -/
def indexLength (file : Bytes) : Nat :=
  (file.length - footerSize + 2 ^ 64 - footerField file 2) % 2 ^ 64

/-- The bytes that are read as the index. -/
def indexData (m : Machine) (file : Bytes) : Bytes :=
  readBytes file (footerField file 2) (m.atMost (indexLength file))

/-- The number of blocks that the index section begins with. -/
def blockCount (m : Machine) (file : Bytes) : Nat := leAt 4 (indexData m file) 0

/-- Nothing throws while the index is loaded. -/
def SectionLoads (m : Machine) (file : Bytes) : Prop :=
  m.Reads (footerField file 2) (indexLength file) ∧ 4 ≤ (indexData m file).length ∧
    m.reserves (blockCount m file) = true ∧ IndexLoads m (indexData m file) 4 (blockCount m file)

/-- A file with an index section. -/
structure IndexedInside (m : Machine) (file : Bytes) : Prop where
  /-- behind the footer the length has wrapped, and the read has to throw -/
  wraps : file.length - footerSize < footerField file 2 →
    ¬ m.Reads (footerField file 2) (indexLength file)
  loads : m.Reads (footerField file 2) (indexLength file) → 4 ≤ (indexData m file).length ∧
    (m.reserves (blockCount m file) = true →
      IndexInside m (indexData m file) 4 (blockCount m file))
  table : SectionLoads m file → TableInside m ((footerTable file).withIndex
    (indexEntriesFrom (indexData m file) 4 (blockCount m file)))

/-- The rows up to `FF FF` in the one block of a file without an index. -/
def FirstRows (m : Machine) (file : Bytes) (rows : List Entry) : Prop :=
  if footerField file 0 < 8 then rows = []
  else m.Reads 0 (sizeAt file 0) ∧ ∃ l n, Searches (blockAt m file 0) (sizeAt file 0) [] l l ∧
    RowsTo m (blockAt m file 0) (restartsAt (blockAt m file 0) (sizeAt file 0)) [0xFF, 0xFF]
      (restartOffset (blockAt m file 0) (sizeAt file 0) (l - 1)) n ∧
    rows = rowsFrom (blockAt m file 0)
      (restartOffset (blockAt m file 0) (sizeAt file 0) (l - 1)) n

/-- A file without one. The constructor scans it, and notes the first and the last key. -/
structure ScannedInside (m : Machine) (file : Bytes) : Prop where
  scan : ScanInside m True file (footerField file 0) 0 [] [0xFF, 0xFF]
  table : ∀ rows, FirstRows m file rows → TableInside m ((footerTable file).withRange rows)

/-- **A file that is rejected, or can be read.** -/
def WellFormed (m : Machine) (file : Bytes) : Prop :=
  file.length < footerSize ∨ footerField file 3 ≠ magic ∨
    FilterInside m file ∧ (FilterLoads m file →
      (footerField file 2 = file.length - footerSize → ScannedInside m file) ∧
      (footerField file 2 ≠ file.length - footerSize → IndexedInside m file))

section Open

variable {file : Bytes}

/-- One field of the footer is read. -/
theorem read_footerField (hlen : footerSize ≤ file.length) {i : Nat} (hi : i < 4) :
    readLE 8 (readBytes file (file.length - footerSize) footerSize) (8 * i) =
      .ok (footerField file i) := by
  unfold footerSize at hlen ⊢
  refine readLE_ok_iff.mpr ⟨?_, ?_⟩
  · rw [length_readBytes]
    omega
  · rw [leAt, readBytes, List.drop_take, List.drop_drop, List.take_take, footerField, leAt,
      min_eq_left (by omega), footerSize]

/-- The four reads of the footer. -/
theorem read_footerFields (hlen : footerSize ≤ file.length) {footer : Bytes}
    (hfooter : footer = readBytes file (file.length - footerSize) footerSize) :
    readLE 8 footer 0 = .ok (footerField file 0) ∧ readLE 8 footer 8 = .ok (footerField file 1) ∧
      readLE 8 footer 16 = .ok (footerField file 2) ∧
      readLE 8 footer 24 = .ok (footerField file 3) := by
  subst hfooter
  exact ⟨read_footerField hlen (i := 0) (by omega), read_footerField hlen (i := 1) (by omega),
    read_footerField hlen (i := 2) (by omega), read_footerField hlen (i := 3) (by omega)⟩

/-- A key range changes neither file nor filter. -/
theorem withRange_file (t : SSTable) (rows : List Entry) :
    (t.withRange rows).file = t.file ∧ (t.withRange rows).bloomFilter = t.bloomFilter := by
  unfold withRange
  split <;> exact ⟨rfl, rfl⟩

/-- Nor does an index. -/
theorem withIndex_file (t : SSTable) (index : List IndexEntry) :
    (t.withIndex index).file = t.file ∧ (t.withIndex index).bloomFilter = t.bloomFilter := by
  unfold withIndex
  split <;> exact ⟨rfl, rfl⟩

variable [m : Machine]

/-- A file is never so long that a read inside it could be refused for its offset. -/
theorem refuses_eq_false {offset : Nat} (hfile : file.length ≤ maxFileSize)
    (hoffset : offset ≤ file.length) : m.refuses offset = false := by
  by_contra h
  have := m.refuses_above offset (by simpa using h)
  unfold maxFileSize at hfile
  omega

/-- **Loading the filter**: it throws, or the read has returned all of it. -/
theorem readFilter_within_iff :
    Within True (readFilter file (footerField file 1) (footerField file 2)) ↔
      FilterInside m file := by
  rw [readFilter, FilterInside, FilterLoads, ← filterLength]
  by_cases hlt : footerField file 1 < footerField file 2
  · rw [if_pos hlt, within_read_bind_iff]
    simp only [within_bind_iff, within_alloc_iff, alloc_ok_iff, within_slice_iff, or_true,
      implies_true, and_true, true_and, hlt, and_imp, Nat.zero_add, forall_const]
  · rw [if_neg hlt]
    exact iff_of_true trivial fun h => absurd h hlt

/-- What is loaded is the filter, which is empty when it has no bytes. -/
theorem readFilter_eq_ok_iff {bloomFilter : Bytes} :
    readFilter file (footerField file 1) (footerField file 2) = .ok bloomFilter ↔
      FilterInside m file ∧ FilterLoads m file ∧
        bloomFilter = readBytes file (footerField file 1) (filterLength file) := by
  have hatMost := m.atMost_le (filterLength file)
  have hlen := length_readBytes file (footerField file 1) (m.atMost (filterLength file))
  rw [readFilter, FilterInside, FilterLoads, ← filterLength]
  -- there is a filter to load, or none
  by_cases hlt : footerField file 1 < footerField file 2
  · rw [if_pos hlt]
    simp only [hlt, true_imp_iff]
    by_cases hreads : m.Reads (footerField file 1) (filterLength file)
    · rw [m.read_eq file hreads, Except.ok_bind]
      simp only [Except.bind_eq_ok_iff, alloc_ok_iff, exists_const, hreads, true_and]
      constructor
      · rintro ⟨hgrants, hslice⟩
        obtain ⟨hall, rfl⟩ := slice_ok hslice
        rw [Nat.zero_add] at hall
        refine ⟨fun _ => hall, hgrants, ?_⟩
        -- nothing was cut off
        rw [List.drop_zero, List.take_of_length_le (by omega),
          show m.atMost (filterLength file) = filterLength file by omega]
      · rintro ⟨hall, hgrants, rfl⟩
        have hall := hall hgrants
        refine ⟨hgrants, ?_⟩
        rw [slice, if_pos (by rwa [Nat.zero_add]), List.drop_zero,
          List.take_of_length_le (by omega),
          show m.atMost (filterLength file) = filterLength file by omega]
    · obtain ⟨what, hwhat⟩ := m.read_throws file hreads
      rw [hwhat, Except.error_bind]
      simp [hreads]
  · have hempty : readBytes file (footerField file 1) (filterLength file) = [] := by
      rw [filterLength, Nat.sub_eq_zero_of_le (not_lt.mp hlt)]
      exact List.take_zero
    rw [if_neg hlt, hempty, Except.pure_eq_ok, Except.ok.injEq, eq_comm]
    exact ⟨fun h => ⟨fun h' => absurd h' hlt, fun h' => absurd h' hlt, h⟩, fun h => h.2.2⟩

/-- The constructor behind its two checks. -/
theorem openFile_eq (hfile : file.length ≤ maxFileSize) (hlen : footerSize ≤ file.length)
    (hmagic : footerField file 3 = magic) :
    openFile file = readFilter file (footerField file 1) (footerField file 2) >>= fun bloomFilter =>
      if footerField file 2 = file.length - footerSize then
        (SSTable.scan { footerTable file with bloomFilter := bloomFilter } [] [0xFF, 0xFF]).map
          ({ footerTable file with bloomFilter := bloomFilter } : SSTable).withRange
      else (loadIndex file (footerField file 2)).map
        ({ footerTable file with bloomFilter := bloomFilter } : SSTable).withIndex := by
  obtain ⟨h0, h1, h2, h3⟩ := read_footerFields hlen rfl
  have hread := m.read_page file
    (refuses_eq_false hfile (show file.length - footerSize ≤ file.length by omega))
    (show footerSize ≤ 4096 by norm_num [footerSize])
  rw [hmagic] at h3
  unfold openFile
  rw [if_neg (not_lt.mpr hlen), hread]
  simp only [Except.pure_eq_ok, Except.ok_bind, h0, h1, h2, h3]
  rw [if_neg (by simp)]
  congr 1

/-- What is left to do when the filter is loaded. -/
def finishOpen (file : Bytes) : Except Fault SSTable :=
  if footerField file 2 = file.length - footerSize then
    ((footerTable file).scan [] [0xFF, 0xFF]).map (footerTable file).withRange
  else (loadIndex file (footerField file 2)).map (footerTable file).withIndex

/-- Opening a file with a footer, and then using the table. -/
theorem open_within_iff (hfile : file.length ≤ maxFileSize) (hlen : footerSize ≤ file.length)
    (hmagic : footerField file 3 = magic) {uses : SSTable → Prop} :
    (Within True (openFile file) ∧ ∀ t, openFile file = .ok t → uses t) ↔
      FilterInside m file ∧ (FilterLoads m file →
        Within True (finishOpen file) ∧ ∀ t, finishOpen file = .ok t → uses t) := by
  rw [openFile_eq hfile hlen hmagic, within_bind_iff, readFilter_within_iff]
  simp only [Except.bind_eq_ok_iff, readFilter_eq_ok_iff]
  constructor
  · rintro ⟨⟨hinside, hwithin⟩, huses⟩
    refine ⟨hinside, fun hloads => ⟨hwithin _ ⟨hinside, hloads, rfl⟩, fun t ht => ?_⟩⟩
    exact huses t ⟨_, ⟨hinside, hloads, rfl⟩, ht⟩
  · rintro ⟨hinside, h⟩
    refine ⟨⟨hinside, ?_⟩, ?_⟩
    · rintro _ ⟨-, hloads, rfl⟩
      exact (h hloads).1
    · rintro t ⟨_, ⟨-, hloads, rfl⟩, ht⟩
      exact (h hloads).2 t ht

/-- The rows of the constructor's scan, read off the file. -/
theorem scanBlock_eq_ok_iff (hfile : file.length ≤ maxFileSize)
    (hscan : ScanInside m True file (footerField file 0) 0 [] [0xFF, 0xFF]) {rows : List Entry} :
    (footerTable file).scanBlock 0 [] [0xFF, 0xFF] = .ok rows ↔ FirstRows m file rows := by
  have hzero : m.refuses 0 = false := refuses_eq_false hfile (Nat.zero_le _)
  have hend8 : (0 + 8) % 2 ^ 64 = 8 := by norm_num
  have htable : (footerTable file).file = file ∧
      (footerTable file).dataEnd = footerField file 0 := ⟨rfl, rfl⟩
  rw [scanBlock, wrapping_eq (by norm_num), FirstRows, hend8, htable.1, htable.2]
  by_cases hend : footerField file 0 < 8
  · rw [if_pos hend, if_pos hend, Except.pure_eq_ok, Except.ok.injEq, eq_comm]
  · obtain ⟨hlen, hblock⟩ := hscan.header (by norm_num) (not_lt.mp hend) hzero
    have hsize : readLE 4 (readBytes file 0 8) 4 = .ok (sizeAt file 0) :=
      readLE_ok_iff.mpr ⟨by rw [length_readBytes]; omega, leAt_header file 0⟩
    rw [if_neg hend, if_neg hend]
    simp only [m.read_page file hzero (show 8 ≤ 4096 by norm_num), Except.ok_bind, hsize]
    by_cases hreads : m.Reads 0 (sizeAt file 0)
    · rw [m.read_eq file hreads, Except.ok_bind, ← blockAt, and_iff_right hreads]
      exact (hblock.1 hreads).scanBlockRows_eq_ok_iff (sizeAt_lt file 0)
    · obtain ⟨what, hwhat⟩ := m.read_throws file hreads
      rw [hwhat]
      simp [hreads]

/-- Without an index. -/
theorem scanned_within_iff (hfile : file.length ≤ maxFileSize)
    (hindex : footerField file 2 = file.length - footerSize) {uses : SSTable → Prop}
    (huses : ∀ rows, uses ((footerTable file).withRange rows) ↔
      TableInside m ((footerTable file).withRange rows)) :
    (Within True (finishOpen file) ∧ ∀ t, finishOpen file = .ok t → uses t) ↔
      ScannedInside m file := by
  have hscan : (footerTable file).scan [] [0xFF, 0xFF] =
      (footerTable file).scanBlock 0 [] [0xFF, 0xFF] := rfl
  have hwithin : Within True ((footerTable file).scanBlock 0 [] [0xFF, 0xFF]) ↔
      ScanInside m True file (footerField file 0) 0 [] [0xFF, 0xFF] :=
    scanBlock_within_iff hfile [] [0xFF, 0xFF]
  rw [finishOpen, if_pos hindex, within_map_iff, hscan, hwithin]
  simp only [Except.map_eq_ok_iff]
  constructor
  · rintro ⟨h, ht⟩
    refine ⟨h, fun rows hrows => (huses rows).mp (ht _ ⟨rows, ?_, rfl⟩)⟩
    exact (scanBlock_eq_ok_iff hfile h).mpr hrows
  · intro h
    refine ⟨h.scan, ?_⟩
    rintro _ ⟨rows, hrows, rfl⟩
    exact (huses rows).mpr (h.table rows ((scanBlock_eq_ok_iff hfile h.scan).mp hrows))

/-- A wrapped length that can be read is so small that the read starts behind the file. -/
theorem indexData_of_wraps (hfile : file.length ≤ maxFileSize) (hbounded : m.Bounded)
    (hwraps : file.length - footerSize < footerField file 2)
    (hreads : m.Reads (footerField file 2) (indexLength file)) : indexData m file = [] := by
  have hlt : footerField file 2 < 2 ^ 64 := leAt_lt 8 _ _
  have hsmall : indexLength file < 2 ^ 61 := by
    rcases hreads.1 with hle | hgrants
    · omega
    · exact hbounded _ hgrants
  rw [indexData, readBytes, List.drop_eq_nil_of_le, List.take_nil]
  unfold indexLength at hsmall
  unfold maxFileSize at hfile
  omega

/-- What reading the index section needs. -/
theorem readSection_within_iff :
    Within True (readSection file (footerField file 2) (indexLength file)) ↔
      (m.Reads (footerField file 2) (indexLength file) → 4 ≤ (indexData m file).length ∧
        (m.reserves (blockCount m file) = true →
          IndexInside m (indexData m file) 4 (blockCount m file))) := by
  rw [readSection, within_read_bind_iff, ← indexData, within_readLE_bind_iff, ← blockCount,
    Nat.zero_add, ← readIndex_within_iff]
  cases m.reserves (blockCount m file) <;> simp [throw, throwThe, MonadExceptOf.throw]

/-- What it returns. -/
theorem readSection_eq_ok_iff {index : List IndexEntry} :
    readSection file (footerField file 2) (indexLength file) = .ok index ↔
      SectionLoads m file ∧
        index = indexEntriesFrom (indexData m file) 4 (blockCount m file) := by
  rw [readSection, SectionLoads]
  by_cases hreads : m.Reads (footerField file 2) (indexLength file)
  · rw [m.read_eq file hreads, Except.ok_bind, ← indexData, Except.bind_eq_ok_iff]
    have hcount : leAt 4 (indexData m file) 0 = blockCount m file := rfl
    simp only [readLE_ok_iff, hcount, Nat.zero_add, and_assoc, exists_and_left, exists_eq_left',
      hreads, true_and, ← readIndex_eq_ok_iff]
    refine and_congr_right fun _ => ?_
    cases m.reserves (blockCount m file) <;> simp [throw, throwThe, MonadExceptOf.throw]
  · obtain ⟨what, hwhat⟩ := m.read_throws file hreads
    rw [hwhat, Except.error_bind]
    simp [hreads]

/-- With an index, or with an offset that says so. -/
theorem indexed_within_iff (hfile : file.length ≤ maxFileSize) (hbounded : m.Bounded)
    (hindex : footerField file 2 ≠ file.length - footerSize) {uses : SSTable → Prop}
    (huses : ∀ index, uses ((footerTable file).withIndex index) ↔
      TableInside m ((footerTable file).withIndex index)) :
    (Within True (finishOpen file) ∧ ∀ t, finishOpen file = .ok t → uses t) ↔
      IndexedInside m file := by
  rw [finishOpen, if_neg hindex, within_map_iff, loadIndex, ← indexLength, within_wrapping_iff,
    readSection_within_iff]
  simp only [Except.map_eq_ok_iff, wrapping_ok_iff, readSection_eq_ok_iff, exists_and_left,
    exists_eq, and_true, not_le]
  constructor
  · rintro ⟨⟨hloads, hwraps⟩, ht⟩
    refine ⟨fun hlt hreads => ?_, hloads, fun hsection => (huses _).mp (ht _ ⟨_, ⟨?_, hsection,
      rfl⟩, rfl⟩)⟩
    · -- nothing can be behind a length that has wrapped
      have hlen := (hloads hreads).1
      rw [indexData_of_wraps hfile hbounded hlt hreads] at hlen
      exact absurd hlen (by simp)
    · exact not_lt.mp fun hlt => hwraps hlt hsection
  · intro h
    refine ⟨⟨h.loads, fun hlt hsection => h.wraps hlt hsection.1⟩, ?_⟩
    rintro _ ⟨_, ⟨-, hsection, rfl⟩, rfl⟩
    exact (huses _).mpr (h.table hsection)

/-- **Corrupt tables are rejected, not misread,** exactly when the file is well formed: then
the constructor throws, or it has returned a table, and it and every lookup and scan of the
table throw or stay inside the buffers that they have read. The file is any string of bytes
that a file system can hold (`hfile`), the machine any that grants less than `2 ^ 61` bytes
at once (`hbounded`). Both directions hold on each machine by itself: what is well formed on
one of them need not be on another. -/
theorem corrupt_tables_rejected_iff (hfile : file.length ≤ maxFileSize) (hbounded : m.Bounded) :
    (Within True (openFile file) ∧ ∀ t, openFile file = .ok t →
      (∀ key, Within True (t.get key)) ∧ ∀ start stop, Within True (t.scan start stop)) ↔
      WellFormed m file := by
  rw [WellFormed]
  by_cases hlen : file.length < footerSize
  · -- too short
    have hopen : openFile file = .error (.thrown "sstable too small") := by
      unfold openFile
      rw [if_pos hlen]
      rfl
    rw [hopen]
    simp [hlen]
  by_cases hmagic : footerField file 3 = magic
  · rw [not_lt] at hlen
    rw [or_iff_right hlen.not_gt, or_iff_right (not_not.mpr hmagic),
      open_within_iff hfile hlen hmagic]
    refine and_congr_right fun _ => imp_congr_right fun hfilter => ?_
    -- the filter is short enough, so lookups count its bits right
    have hbits : (footerTable file).bloomFilter.length * 8 < 2 ^ 64 := by
      have hle : (footerTable file).bloomFilter.length ≤ filterLength file := by
        rw [footerTable, length_readBytes]
        exact min_le_left _ _
      by_cases hlt : footerField file 1 < footerField file 2
      · have := hbounded _ (hfilter hlt).2
        omega
      · rw [filterLength, Nat.sub_eq_zero_of_le (not_lt.mp hlt)] at hle
        omega
    -- what is asked of the table that is returned does not depend on how it was opened
    have huses : ∀ t : SSTable, t.file = (footerTable file).file ∧
        t.bloomFilter = (footerTable file).bloomFilter →
        (((∀ key, Within True (t.get key)) ∧ ∀ start stop, Within True (t.scan start stop)) ↔
          TableInside m t) := by
      rintro t ⟨htfile, htbloom⟩
      exact reads_within_iff (htfile ▸ hfile) (htbloom ▸ hbits)
    by_cases hindex : footerField file 2 = file.length - footerSize
    · rw [scanned_within_iff hfile hindex fun rows => huses _ (withRange_file _ rows)]
      simp [hindex]
    · rw [indexed_within_iff hfile hbounded hindex fun index => huses _ (withIndex_file _ index)]
      simp [hindex]
  · -- another magic number
    have hread := m.read_page file
      (refuses_eq_false hfile (show file.length - footerSize ≤ file.length by omega))
      (show footerSize ≤ 4096 by norm_num [footerSize])
    obtain ⟨h0, h1, h2, h3⟩ := read_footerFields (not_lt.mp hlen) rfl
    have hopen : openFile file = .error (.thrown "bad magic") := by
      unfold openFile
      rw [if_neg hlen, hread]
      simp only [Except.pure_eq_ok, Except.ok_bind, h0, h1, h2, h3]
      rw [if_pos hmagic]
      rfl
    rw [hopen]
    simp [hmagic]

end Open

-- ---------------------------------------------------------------------------
-- Files that are misread, and files that are not
-- ---------------------------------------------------------------------------

/-- Eight bytes of data and no index: the size field of the block says 100. -/
def overlongBlock : Bytes := leBytes 4 0 ++ (leBytes 4 100 ++ encodeFooter 8 8 8)

/-- The same data with an index of one block. -/
def indexedOverlongBlock : Bytes :=
  leBytes 4 0 ++ (leBytes 4 100 ++ (encodeIndex [⟨[], 0⟩] ++ encodeFooter 8 8 8))

/-- The constructor reads the first of these behind its end. The second is opened, and
only the lookup notices that its block is too long. -/
theorem overlong_block_misread :
    openFile overlongBlock = .error .outOfBounds ∧
      (openFile indexedOverlongBlock >>= fun t => t.get [107]) = .ok none ∧
      (openFile indexedOverlongBlock >>= fun t => t.scan [] [107]) = .error .outOfBounds := by
  decide +kernel

/-- A machine with `2 ^ 40` bytes of memory, whose reads take a signed offset and return
less than two gigabytes. -/
@[reducible] def terabyte : Machine where
  grants n := decide (n < 2 ^ 40)
  reserves n := decide (40 * n < 2 ^ 40)
  refuses offset := decide (2 ^ 63 ≤ offset)
  atMost n := min n 0x7FFFF000
  refuses_above offset h := of_decide_eq_true h
  atMost_le n := min_le_left _ _
  atMost_page n h := min_eq_left (by omega)

/-- A footer alone, with a filter that no memory can be had for. -/
def hugeFilter : Bytes := encodeFooter 0 0 (2 ^ 63)

/-- On this machine that file is rejected, although no check of the constructor looks at the
length. The overlong block is misread on it as on any other. -/
theorem corrupt_tables_rejected_terabyte :
    ¬ WellFormed terabyte overlongBlock ∧ WellFormed terabyte hugeFilter := by
  have hbounded : terabyte.Bounded := by
    intro n hn
    have := of_decide_eq_true hn
    omega
  -- the constructor reads the one file behind a buffer, and has no memory for the other
  have hmisread : openFile (m := terabyte) overlongBlock = .error .outOfBounds := by
    decide +kernel
  have hthrows : openFile (m := terabyte) hugeFilter = .error (.thrown "std::bad_alloc") := by
    decide +kernel
  constructor
  · intro h
    have hopen := ((corrupt_tables_rejected_iff (m := terabyte) (by decide +kernel)
      hbounded).mpr h).1
    rw [hmisread] at hopen
    exact not_within_outOfBounds hopen
  · refine (corrupt_tables_rejected_iff (m := terabyte) (by decide +kernel) hbounded).mp ⟨?_, ?_⟩
    · rw [hthrows, within_thrown]
      trivial
    · intro t ht
      rw [hthrows] at ht
      cases ht

end SSTable

end Zenith
