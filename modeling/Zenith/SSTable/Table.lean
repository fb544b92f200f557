import Zenith.SSTable.Bloom
import Zenith.SSTable.BlockSearch

/-!
# Zenith — sorted tables

`SSTable` of `sstable.cpp`: `create` writes blocks, bloom filter, sparse index and footer;
`openFile` is the constructor, which reads footer, filter and index back into memory; `get`
and `scan` read blocks on demand. A file is its bytes, and a read returns the bytes that are
there.

What a reader computes from the bytes of a file is checked here as the language would have
it: a substring behind the end of a buffer and a length that leaves its type are faults.
Where a wrapped length is followed by a read that throws, `wrapping` says so. Everything
that depends on memory, on how much one read returns and on which offsets a read accepts is
asked of a `Machine`; the machine that grants everything is the default, and results about
created files are on it.

The writer cuts the entries into blocks with `fillBlock`, one round of its outer loop for
each. `blocksOf` gives the entries of each block and `layoutBlocks` the bytes and index
entries that they make, so that later results can speak of blocks as lists of entries. Every
one of these definitions is computable.

A file is created as a whole or not at all: `Write failed` is the exception of a write that
goes beyond the largest offset, and a file that was cut off by a crash is another matter.

Main results:

* `buildBlocks_eq` — the data section is the layout of the blocks that `blocksOf` cuts the
  entries into;
* `layoutBlocks_split` — every index entry points at its block;
* `keyRange_created` — the key range of an opened file leaves out no entry;
* `openFile_create` — opening a created file gives a table over these blocks.
-/

namespace Zenith

open Bytes

/-- Where a block starts and which key it starts with. -/
structure IndexEntry where
  minKey : Bytes
  offset : Nat
  deriving DecidableEq

/-- The metadata: the key range, as far as the constructor knows it, the size of the file
and a count. -/
structure SSTableMeta where
  minKey : Bytes
  maxKey : Bytes
  fileSize : Nat
  entryCount : Nat
  deriving DecidableEq

/-- An open table: its file and what the constructor read from it. -/
structure SSTable where
  file : Bytes
  metaData : SSTableMeta
  dataEnd : Nat
  bloomOffset : Nat
  indexOffset : Nat
  index : List IndexEntry
  bloomFilter : Bytes
  deriving DecidableEq

namespace SSTable

/-- The number that ends a footer. -/
def magic : Nat := 0xDB55CA1E
/-- Four numbers of eight bytes. -/
def footerSize : Nat := 32

/-- The largest file offset; a write that would go beyond it fails. -/
def maxFileSize : Nat := 2 ^ 63 - 1

/-! ## Writing a table -/

/-- A round of the outer loop takes at least one entry. -/
theorem fillBlock_start_lt (kv : Entry) (rest : List Entry) :
    (fillBlock .start (kv :: rest)).2.length < (kv :: rest).length := by
  obtain ⟨taken, hsplit, -, hne⟩ := fillBlock_spec BlockBuilder.start_holds (kv :: rest)
  have hpos : 0 < taken.length :=
    List.length_pos_iff.mpr (hne rfl (List.cons_ne_nil kv rest))
  conv_rhs => rw [hsplit, List.length_append]
  omega

/-- The outer loop of `create`: the blocks with their index entries, the first
one at `offset`. -/
def buildBlocks (offset : Nat) : List Entry → List (IndexEntry × Bytes)
  | [] => []
  | kv :: rest =>
    let data := finishBlock (fillBlock .start (kv :: rest)).1
    (⟨kv.1, offset⟩, data) ::
      buildBlocks (offset + data.length) (fillBlock .start (kv :: rest)).2
termination_by es => es.length
decreasing_by exact fillBlock_start_lt kv rest

/-- The length of the key, the key and the offset of the block. -/
def encodeIndexEntry (ie : IndexEntry) : Bytes :=
  leBytes 4 ie.minKey.length ++ (ie.minKey ++ leBytes 8 ie.offset)

/-- The number of blocks, in 32 bits, and their entries. -/
def encodeIndex (index : List IndexEntry) : Bytes :=
  leBytes 4 index.length ++ index.flatMap encodeIndexEntry

/-- Where the data ends, where filter and index start, and the magic number. -/
def encodeFooter (dataEnd bloomOffset indexOffset : Nat) : Bytes :=
  leBytes 8 dataEnd ++ (leBytes 8 bloomOffset ++ (leBytes 8 indexOffset ++ leBytes 8 magic))

/-- Writes the entries to a file. -/
def create (entries : List Entry) : Except Fault Bytes :=
  let blocks := buildBlocks 0 entries
  let data := blocks.flatMap (·.2)
  let bloom := buildBloom entries
  let indexOffset := data.length + bloom.length
  let file := data ++ (bloom ++ (encodeIndex (blocks.map (·.1)) ++
    encodeFooter data.length data.length indexOffset))
  if file.length ≤ maxFileSize then .ok file else .error (.thrown "Write failed")

/-! ## Reading a table -/

/-- A checked 64-bit addition. -/
def addU64 (a b : Nat) : Except Fault Nat := if a + b < 2 ^ 64 then .ok (a + b) else .error .overflow

section Blocks

variable [m : Machine]

/-- `find_in_block`: header and block are read, the block must end inside the data, and is
searched. -/
def findInBlock (t : SSTable) (offset : Nat) (key : Bytes) : Except Fault (Option Bytes) :=
  wrapping (offset + 8 < 2 ^ 64) do
    if (offset + 8) % 2 ^ 64 > t.dataEnd then return none
    let header ← m.read t.file offset 8
    let _numEntries ← readLE 4 header 0
    let blockSize ← readLE 4 header 4
    if (← addU64 offset blockSize) > t.dataEnd then return none
    let blockData ← m.read t.file offset blockSize
    findBlock blockData blockSize key

/-- The rows of the block that `scan_block` appends. -/
def scanBlock (t : SSTable) (offset : Nat) (start stop : Bytes) : Except Fault (List Entry) :=
  wrapping (offset + 8 < 2 ^ 64) do
    if (offset + 8) % 2 ^ 64 > t.dataEnd then return []
    let header ← m.read t.file offset 8
    let blockSize ← readLE 4 header 4
    let blockData ← m.read t.file offset blockSize
    scanBlockRows blockData blockSize start stop

end Blocks

/-- The test of the search over the index: is the `i`-th entry not above `key`? -/
def notAbove (index : List IndexEntry) (key : Bytes) (i : Nat) : Bool :=
  (index[i]?).any fun ie => !decide (key < ie.minKey)

/-- `std::upper_bound` over the index. -/
def upperBound (index : List IndexEntry) (key : Bytes) : Nat :=
  BinarySearch.search (notAbove index key) 0 index.length

/-- The index from one entry in front of the upper bound on, or all of it. -/
def seekIndex (index : List IndexEntry) (key : Bytes) : List IndexEntry :=
  index.drop (upperBound index key - 1)

/-- The table with the key range of a full scan, for a file without an index. -/
def withRange (t : SSTable) (all : List Entry) : SSTable :=
  match all.head?, all.getLast? with
  | some front, some back =>
    { t with metaData := ⟨front.1, back.1, t.file.length, all.length⟩ }
  | _, _ => t

/-- The table with its index, whose first key is taken for the smallest one. -/
def withIndex (t : SSTable) (index : List IndexEntry) : SSTable :=
  match index.head? with
  | some front => { t with index := index, metaData := ⟨front.minKey, [], t.file.length, 1⟩ }
  | none => t

section Reading

variable [m : Machine]

/-- `get`: the filter, then the block that the index search leads to. -/
def get (t : SSTable) (key : Bytes) : Except Fault (Option Bytes) :=
  -- `bloom_bits` of `may_contain` is computed in 64 bits
  if 2 ^ 64 ≤ t.bloomFilter.length * 8 then .error .overflow
  else if mayContain t.bloomFilter key = false then .ok none
  else
    match seekIndex t.index key with
    | [] => t.findInBlock 0 key
    | ie :: _ => t.findInBlock ie.offset key

/-- The loop of `scan` over the index. -/
def scanIndex (t : SSTable) (start stop : Bytes) : List IndexEntry → Except Fault (List Entry)
  | [] => .ok []
  | ie :: rest =>
    if ie.minKey > stop then .ok []
    else do
      let rows ← t.scanBlock ie.offset start stop
      let more ← t.scanIndex start stop rest
      return rows ++ more

/-- `scan`: the key range, then the blocks from the one that can hold the start. -/
def scan (t : SSTable) (start stop : Bytes) : Except Fault (List Entry) :=
  if start > stop then .ok []
  else if t.metaData.maxKey ≠ [] ∧ start > t.metaData.maxKey then .ok []
  else if t.metaData.minKey ≠ [] ∧ stop < t.metaData.minKey then .ok []
  else if t.index = [] then t.scanBlock 0 start stop
  else t.scanIndex start stop (seekIndex t.index start)

/-- The index loop of `parse_footer_and_index`. -/
def readIndex (buf : Bytes) : Nat → Nat → Except Fault (List IndexEntry)
  | 0, _ => .ok []
  | n + 1, p => do
    let keyLen ← readLE 4 buf p
    let minKey ← copyOut buf (p + 4) keyLen
    let off ← readLE 8 buf (p + 4 + keyLen)
    let rest ← readIndex buf n (p + 4 + keyLen + 8)
    return ⟨minKey, off⟩ :: rest

/-- The filter, when there is one: its bytes, copied into an array of the length that the
footer gives it. -/
def readFilter (file : Bytes) (bloomOffset indexOffset : Nat) : Except Fault Bytes :=
  if indexOffset > bloomOffset then do
    let bloomRaw ← m.read file bloomOffset (indexOffset - bloomOffset)
    m.alloc (indexOffset - bloomOffset)
    slice bloomRaw 0 (indexOffset - bloomOffset)
  else return []

/-- Reads `idxLen` bytes at `indexOffset` as the index. -/
def readSection (file : Bytes) (indexOffset idxLen : Nat) : Except Fault (List IndexEntry) := do
  let indexData ← m.read file indexOffset idxLen
  let blockCount ← readLE 4 indexData 0
  if m.reserves blockCount = false then throw (.thrown "std::bad_alloc")
  readIndex indexData blockCount 4

/-- The index section of a file. Behind the footer `idx_len` wraps around. -/
def loadIndex (file : Bytes) (indexOffset : Nat) : Except Fault (List IndexEntry) :=
  wrapping (indexOffset ≤ file.length - footerSize)
    (readSection file indexOffset
      ((file.length - footerSize + 2 ^ 64 - indexOffset) % 2 ^ 64))

/-- The constructor: checks the size, then `parse_footer_and_index`. -/
def openFile (file : Bytes) : Except Fault SSTable := do
  if file.length < footerSize then throw (.thrown "sstable too small")
  let footer ← m.read file (file.length - footerSize) footerSize
  let dataEnd ← readLE 8 footer 0
  let bloomOffset ← readLE 8 footer 8
  let indexOffset ← readLE 8 footer 16
  let magicRead ← readLE 8 footer 24
  if magicRead ≠ magic then throw (.thrown "bad magic")
  let bloomFilter ← readFilter file bloomOffset indexOffset
  let noIndex : SSTable :=
    ⟨file, ⟨[], [], file.length, 0⟩, dataEnd, bloomOffset, indexOffset, [], bloomFilter⟩
  if indexOffset = file.length - footerSize then
    -- no index: the key range comes from a full scan
    let all ← noIndex.scan [] [0xFF, 0xFF]
    return noIndex.withRange all
  else
    let index ← loadIndex file indexOffset
    return noIndex.withIndex index

end Reading

/-! ## The data section -/

/-- The entries cut into blocks, as `create` cuts them. -/
def blocksOf : List Entry → List (List Entry)
  | [] => []
  | kv :: rest =>
    (kv :: rest).take (fillBlock .start (kv :: rest)).1.numEntries ::
      blocksOf (fillBlock .start (kv :: rest)).2
termination_by es => es.length
decreasing_by exact fillBlock_start_lt kv rest

/-- The first key of a block. -/
def firstKey (b : List Entry) : Bytes :=
  match b with
  | [] => []
  | kv :: _ => kv.1

/-- The blocks of a data section with their index entries, the first one at
`offset`. All but the last are closed by the size rule. -/
def layoutBlocks (offset : Nat) : List (List Entry) → List (IndexEntry × Bytes)
  | [] => []
  | b :: bs =>
    let data := encodeBlock b (decide (bs ≠ []))
    (⟨firstKey b, offset⟩, data) :: layoutBlocks (offset + data.length) bs

/-- What a round of the outer loop takes, and the bytes it makes of it. -/
theorem fillBlock_start_take (kv : Entry) (rest : List Entry) :
    ∃ taken, taken ≠ [] ∧ kv :: rest = taken ++ (fillBlock .start (kv :: rest)).2 ∧
      (kv :: rest).take (fillBlock .start (kv :: rest)).1.numEntries = taken ∧
      finishBlock (fillBlock .start (kv :: rest)).1 =
        encodeBlock taken (decide ((fillBlock .start (kv :: rest)).2 ≠ [])) := by
  obtain ⟨taken, hsplit, hholds, hne⟩ := fillBlock_spec BlockBuilder.start_holds (kv :: rest)
  rw [List.nil_append] at hholds
  refine ⟨taken, hne rfl (List.cons_ne_nil kv rest), hsplit, ?_, finishBlock_eq hholds⟩
  rw [hholds.numEntries]
  conv_lhs => rw [hsplit]
  exact List.take_left' rfl

/-- Only no entries make no blocks. -/
theorem blocksOf_eq_nil {es : List Entry} : blocksOf es = [] ↔ es = [] := by
  cases es with
  | nil => simp [blocksOf]
  | cons kv rest => simp [blocksOf]

/-- The blocks are a partition of the entries into non-empty segments. -/
theorem blocksOf_spec (es : List Entry) :
    (blocksOf es).flatten = es ∧ ∀ b ∈ blocksOf es, b ≠ [] := by
  induction es using blocksOf.induct with
  | case1 => simp [blocksOf]
  | case2 kv rest ih =>
    obtain ⟨taken, hne, hsplit, htake, -⟩ := fillBlock_start_take kv rest
    rw [blocksOf, htake]
    refine ⟨?_, ?_⟩
    · rw [List.flatten_cons, ih.1, ← hsplit]
    · intro b hb
      rcases List.mem_cons.mp hb with rfl | hb
      · exact hne
      · exact ih.2 b hb

/-- The data section is the layout of the blocks. -/
theorem buildBlocks_eq (offset : Nat) (es : List Entry) :
    buildBlocks offset es = layoutBlocks offset (blocksOf es) := by
  induction offset, es using buildBlocks.induct with
  | case1 offset => simp [buildBlocks, blocksOf, layoutBlocks]
  | case2 offset kv rest data ih =>
    obtain ⟨taken, hne, hsplit, htake, hdata⟩ := fillBlock_start_take kv rest
    have hfirst : firstKey taken = kv.1 := by
      cases taken with
      | nil => exact absurd rfl hne
      | cons e t =>
        rw [List.cons_append] at hsplit
        rw [(List.cons.inj hsplit).1]
        rfl
    have hlast : decide (blocksOf (fillBlock .start (kv :: rest)).2 ≠ []) =
        decide ((fillBlock .start (kv :: rest)).2 ≠ []) := by
      rw [decide_eq_decide, not_iff_not]
      exact blocksOf_eq_nil
    rw [buildBlocks, blocksOf, layoutBlocks, htake, hfirst, hlast, ← hdata, ih]

/-- The keys of the index are the first keys of the blocks. -/
theorem map_firstKey_layoutBlocks (offset : Nat) (bs : List (List Entry)) :
    (layoutBlocks offset bs).map (fun p => p.1.minKey) = bs.map firstKey := by
  induction bs generalizing offset with
  | nil => rfl
  | cons b bs ih => rw [layoutBlocks, List.map_cons, List.map_cons, ih]

/-- There is one index entry for each block. -/
theorem length_layoutBlocks (offset : Nat) (bs : List (List Entry)) :
    (layoutBlocks offset bs).length = bs.length := by
  induction bs generalizing offset with
  | nil => rfl
  | cons b bs ih => rw [layoutBlocks, List.length_cons, List.length_cons, ih]

/-- Every index entry points at its block. -/
theorem layoutBlocks_split {offset : Nat} {bs : List (List Entry)} {ipre isuf : List IndexEntry}
    {ie : IndexEntry} (h : (layoutBlocks offset bs).map (·.1) = ipre ++ ie :: isuf) :
    ∃ pre b post a z, bs = pre ++ b :: post ∧ pre.length = ipre.length ∧
      isuf.map (·.minKey) = post.map firstKey ∧ ie.minKey = firstKey b ∧
      ie.offset = offset + a.length ∧
      (layoutBlocks offset bs).flatMap (·.2) = a ++ (encodeBlock b (decide (post ≠ [])) ++ z) := by
  -- by induction on the index entries in front; the offset moves on by a block
  induction ipre generalizing offset bs with
  | nil =>
    cases bs with
    | nil => simp [layoutBlocks] at h
    | cons b post =>
      rw [layoutBlocks, List.map_cons, List.nil_append] at h
      obtain ⟨hie, hisuf⟩ := List.cons.inj h
      refine ⟨[], b, post, [], _, rfl, rfl, ?_, ?_, ?_, List.flatMap_cons⟩
      · rw [← hisuf, List.map_map]
        exact map_firstKey_layoutBlocks _ post
      · rw [← hie]
      · rw [← hie]
        rfl
  | cons ie' ipre ih =>
    cases bs with
    | nil => simp [layoutBlocks] at h
    | cons c bs =>
      rw [layoutBlocks, List.map_cons, List.cons_append] at h
      obtain ⟨pre, b, post, a, z, hbs, hlen, hsuf, hmin, hoff, hdata⟩ := ih (List.cons.inj h).2
      -- one more block in front
      refine ⟨c :: pre, b, post, encodeBlock c (decide (bs ≠ [])) ++ a, z, ?_, ?_, hsuf, hmin, ?_,
        ?_⟩
      · rw [hbs, List.cons_append]
      · rw [List.length_cons, List.length_cons, hlen]
      · rw [hoff, List.length_append]
        omega
      · rw [layoutBlocks, List.flatMap_cons, hdata, List.append_assoc]

/-! ## Opening a created file -/

/-- The blocks of the entries, with their index entries, as they lie in the file. -/
def dataLayout (es : List Entry) : List (IndexEntry × Bytes) := layoutBlocks 0 (blocksOf es)

/-- Every block is short enough for its 32-bit size field. -/
def BlocksFit (es : List Entry) : Prop := ∀ p ∈ buildBlocks 0 es, p.2.length < 2 ^ 32

instance (es : List Entry) : Decidable (BlocksFit es) := by
  unfold BlocksFit
  infer_instance

/-- Such a block has a size below the bound. -/
theorem BlocksFit.length_lt {es : List Entry} (h : BlocksFit es) {p : IndexEntry × Bytes}
    (hp : p ∈ dataLayout es) : p.2.length < 2 ^ 32 :=
  h p (by rwa [buildBlocks_eq])

/-- An entry that fits a block of its own. -/
def EntryFits (e : Entry) : Prop := 24 + e.1.length + e.2.length < 2 ^ 32

instance (e : Entry) : Decidable (EntryFits e) := by
  unfold EntryFits
  infer_instance

/-- A block with more than one entry stays within the target size. -/
theorem fillBlock_size {b : BlockBuilder} {es : List Entry} (hsmall : Small es)
    (hb : b.numEntries ≤ 1 ∨ b.dataBuf.length ≤ blockTargetBytes) :
    (fillBlock b es).1.numEntries ≤ 1 ∨
      (fillBlock b es).1.dataBuf.length ≤ blockTargetBytes := by
  induction es generalizing b with
  | nil => exact hb
  | cons kv rest ih =>
    have hpush : b.pushRestart.numEntries = b.numEntries ∧
        b.pushRestart.dataBuf = b.dataBuf := by
      unfold BlockBuilder.pushRestart
      split <;> exact ⟨rfl, rfl⟩
    obtain ⟨hk, hv⟩ := hsmall kv (List.mem_cons_self ..)
    rw [fillBlock]
    -- an entry that is taken leaves the block at the target, unless it is the only one
    by_cases hfull : b.pushRestart.full kv = true
    · rw [if_pos hfull]
      show b.pushRestart.numEntries ≤ 1 ∨ b.pushRestart.dataBuf.length ≤ blockTargetBytes
      rw [hpush.1, hpush.2]
      exact hb
    · rw [if_neg hfull]
      apply ih (fun e he => hsmall e (List.mem_cons_of_mem _ he))
      show b.pushRestart.numEntries + 1 ≤ 1 ∨
        (b.pushRestart.dataBuf ++ encodeEntry kv).length ≤ blockTargetBytes
      rw [BlockBuilder.full, Bool.and_eq_true, decide_eq_true_eq, decide_eq_true_eq,
        Nat.mod_eq_of_lt hk, Nat.mod_eq_of_lt hv] at hfull
      rw [List.length_append, length_encodeEntry]
      omega

theorem length_blockRestarts_le (es : List Entry) (closed : Bool) :
    (blockRestarts es closed).length ≤ max 1 ((es.length + 15) / 16) + es.length / 16 ∨
      es = [] := by
  rcases List.eq_nil_or_concat es with hnil | ⟨init, e, rfl⟩
  · exact Or.inr hnil
  · left
    rw [blockRestarts, List.length_append]
    simp only [restartsOf, List.length_map, List.length_range, List.concat_eq_append,
      List.length_append, List.length_singleton]
    split
    · next hd =>
      rw [dangling, Bool.and_eq_true, beq_iff_eq] at hd
      simp only [List.length_append, List.length_singleton] at hd ⊢
      omega
    · simp

theorem length_le_flatMap_encodeEntry (es : List Entry) :
    8 * es.length ≤ (es.flatMap encodeEntry).length := by
  induction es with
  | nil => simp
  | cons e es ih =>
    rw [List.flatMap_cons, List.length_append, List.length_cons, length_encodeEntry]
    omega

/-- A block is short when it has one entry that fits, or stays within the target
size. -/
theorem length_encodeBlock_lt {es : List Entry} (closed : Bool) (hne : es ≠ [])
    (hfits : ∀ e ∈ es, EntryFits e)
    (hsize : es.length ≤ 1 ∨ 8 + (es.flatMap encodeEntry).length ≤ blockTargetBytes) :
    (encodeBlock es closed).length < 2 ^ 32 := by
  have hcount := (length_blockRestarts_le es closed).resolve_right hne
  have hentries := length_le_flatMap_encodeEntry es
  rw [length_encodeBlock]
  rcases hsize with hone | hle
  · obtain ⟨e, rest, rfl⟩ := List.exists_cons_of_ne_nil hne
    have hrest : rest = [] := by
      rw [List.length_cons] at hone
      exact List.length_eq_zero_iff.mp (by omega)
    subst hrest
    have he := hfits e (List.mem_cons_self ..)
    unfold EntryFits at he
    have hlen := length_encodeEntry e
    rw [List.flatMap_cons, List.flatMap_nil, List.append_nil]
    rw [List.length_singleton] at hcount
    omega
  · unfold blockTargetBytes at hle
    omega

/-- A block with more than one entry stays within the target size. -/
theorem blocksOf_size {es : List Entry} (hsmall : Small es) :
    ∀ b ∈ blocksOf es, b.length ≤ 1 ∨ 8 + (b.flatMap encodeEntry).length ≤ blockTargetBytes := by
  induction es using blocksOf.induct with
  | case1 => simp [blocksOf]
  | case2 kv rest ih =>
    obtain ⟨taken, hsplit, hholds, -⟩ := fillBlock_spec BlockBuilder.start_holds (kv :: rest)
    have hsize := fillBlock_size (b := .start) hsmall (Or.inl (Nat.zero_le 1))
    rw [List.nil_append] at hholds
    rw [hholds.numEntries, hholds.dataBuf, List.length_append, length_leBytes] at hsize
    have htake : (kv :: rest).take (fillBlock .start (kv :: rest)).1.numEntries = taken := by
      rw [hholds.numEntries]
      conv_lhs => rw [hsplit]
      exact List.take_left' rfl
    rw [blocksOf, htake]
    refine List.forall_mem_cons.mpr ⟨hsize, ih fun e he => hsmall e ?_⟩
    rw [hsplit]
    exact List.mem_append_right _ he

/-- A block of the layout is that of some entries. -/
theorem mem_layoutBlocks {offset : Nat} {bs : List (List Entry)} {p : IndexEntry × Bytes}
    (hp : p ∈ layoutBlocks offset bs) :
    ∃ pre b post, bs = pre ++ b :: post ∧ p.2 = encodeBlock b (decide (post ≠ [])) := by
  induction bs generalizing offset with
  | nil => exact absurd hp List.not_mem_nil
  | cons b bs ih =>
    rw [layoutBlocks] at hp
    rcases List.mem_cons.mp hp with rfl | hp
    · exact ⟨[], b, bs, rfl, rfl⟩
    · obtain ⟨pre, b', post, hbs, hdata⟩ := ih hp
      exact ⟨b :: pre, b', post, by rw [hbs, List.cons_append], hdata⟩

/-- Every block has its place in the layout. -/
theorem exists_mem_layoutBlocks (offset : Nat) (pre : List (List Entry)) (b : List Entry)
    (post : List (List Entry)) :
    ∃ p ∈ layoutBlocks offset (pre ++ b :: post), p.2 = encodeBlock b (decide (post ≠ [])) := by
  induction pre generalizing offset with
  | nil => exact ⟨_, List.mem_cons_self .., rfl⟩
  | cons c pre ih =>
    obtain ⟨p, hp, hdata⟩ := ih (offset + (encodeBlock c (decide (pre ++ b :: post ≠ []))).length)
    exact ⟨p, List.mem_cons_of_mem _ hp, hdata⟩

/-- Entries that fit a block of their own give blocks that fit. -/
theorem blocksFit_of_entries {es : List Entry} (hfits : ∀ e ∈ es, EntryFits e) :
    BlocksFit es := by
  have hsmall : Small es := by
    intro e he
    have := hfits e he
    unfold EntryFits at this
    omega
  intro p hp
  rw [buildBlocks_eq] at hp
  obtain ⟨pre, b, post, hbs, hdata⟩ := mem_layoutBlocks hp
  have hb : b ∈ blocksOf es := by rw [hbs]; simp
  obtain ⟨hflat, hne⟩ := blocksOf_spec es
  rw [hdata]
  refine length_encodeBlock_lt _ (hne b hb) ?_ (blocksOf_size hsmall b hb)
  intro e he
  exact hfits e (by rw [← hflat]; exact List.mem_flatten.mpr ⟨b, hb, he⟩)

/-- Blocks that fit have short keys and values. -/
theorem BlocksFit.small {es : List Entry} (h : BlocksFit es) : Small es := by
  obtain ⟨hflat, -⟩ := blocksOf_spec es
  intro e he
  rw [← hflat] at he
  obtain ⟨b, hb, heb⟩ := List.mem_flatten.mp he
  obtain ⟨pre, post, hbs⟩ := List.append_of_mem hb
  obtain ⟨p, hp, hdata⟩ := exists_mem_layoutBlocks 0 pre b post
  have hsize := h p (by rwa [buildBlocks_eq, hbs])
  rw [hdata] at hsize
  exact small_of_length hsize e heb

/-- A table opened from a file that `create` wrote for the entries `es`, whose
blocks may be too long for their size fields. -/
structure ReadBack (t : SSTable) (es : List Entry) : Prop where
  sorted : es.Pairwise fun a b => a.1 < b.1
  file : ∃ z, t.file = (dataLayout es).flatMap (·.2) ++ z
  dataEnd : t.dataEnd = ((dataLayout es).flatMap (·.2)).length
  dataEnd_lt : t.dataEnd < 2 ^ 63
  bloom : t.bloomFilter = buildBloom es
  bits_lt : t.bloomFilter.length * 8 < 2 ^ 64
  /-- the writer truncates the number of blocks to 32 bits -/
  index : t.index = ((dataLayout es).map (·.1)).take ((blocksOf es).length % 2 ^ 32)
  minKey : t.metaData.minKey = (t.index.head?.map (·.minKey)).getD []
  maxKey : t.metaData.maxKey = []

/-- A table opened from a file that `create` wrote for the entries `es`. -/
structure OpenedOn (t : SSTable) (es : List Entry) : Prop extends ReadBack t es where
  fit : BlocksFit es

/-- A read inside a file whose parts are known. -/
theorem readBytes_eq {file a m z : Bytes} {offset n : Nat} (hfile : file = a ++ (m ++ z))
    (hoffset : offset = a.length) (hn : n = m.length) : readBytes file offset n = m := by
  rw [readBytes, hfile, hoffset, List.drop_left, hn, List.take_left]

/-- The index loop reads back what was written, as many entries as the count says. -/
theorem readIndex_spec {buf a z : Bytes} {index : List IndexEntry} {n p : Nat}
    (hbuf : buf = a ++ (index.flatMap encodeIndexEntry ++ z)) (hp : p = a.length)
    (hn : n ≤ index.length)
    (hsize : ∀ ie ∈ index, ie.minKey.length < 2 ^ 32 ∧ ie.offset < 2 ^ 64) :
    readIndex buf n p = .ok (index.take n) := by
  induction n generalizing index a p with
  | zero => rfl
  | succ n ih =>
    cases index with
    | nil => simp at hn
    | cons ie index =>
      obtain ⟨hkey, hoff⟩ := hsize ie (List.mem_cons_self ..)
      have hrest : buf = a ++ (leBytes 4 ie.minKey.length ++ (ie.minKey ++ (leBytes 8 ie.offset ++
          (index.flatMap encodeIndexEntry ++ z)))) := by
        rw [hbuf, List.flatMap_cons, encodeIndexEntry]
        simp only [List.append_assoc]
      -- the three reads of one index entry
      have hlen : readLE 4 buf p = .ok ie.minKey.length := readLE_eq hrest hp (by omega)
      have hmin : slice buf (p + 4) ie.minKey.length = .ok ie.minKey :=
        slice_eq (a := a ++ leBytes 4 ie.minKey.length) (by rw [hrest, List.append_assoc])
          (by simp [hp]) rfl
      have hoffset : readLE 8 buf (p + 4 + ie.minKey.length) = .ok ie.offset :=
        readLE_eq (a := a ++ (leBytes 4 ie.minKey.length ++ ie.minKey))
          (z := index.flatMap encodeIndexEntry ++ z)
          (by rw [hrest]; simp only [List.append_assoc]) (by simp [hp]; omega) (by omega)
      -- the entries behind it
      have hnext : readIndex buf n (p + 4 + ie.minKey.length + 8) = .ok (index.take n) := by
        apply @ih (a ++ encodeIndexEntry ie)
        · rw [hbuf, List.flatMap_cons, List.append_assoc, List.append_assoc]
        · simp only [encodeIndexEntry, List.length_append, length_leBytes, hp]
          omega
        · simpa using hn
        · intro ie' hie'
          exact hsize ie' (List.mem_cons_of_mem _ hie')
      rw [readIndex, hlen, Except.ok_bind, copyOut_ample, hmin, Except.ok_bind, hoffset,
        Except.ok_bind, hnext]
      rfl

/-- The index entries of a created file fit their fields when the keys do. -/
theorem index_fits {es : List Entry} (hkeys : ∀ e ∈ es, e.1.length < 2 ^ 32)
    (hlen : ((dataLayout es).flatMap (·.2)).length < 2 ^ 63) :
    ∀ ie ∈ (dataLayout es).map (·.1), ie.minKey.length < 2 ^ 32 ∧ ie.offset < 2 ^ 64 := by
  intro ie hie
  obtain ⟨ipre, isuf, hsplit⟩ := List.append_of_mem hie
  obtain ⟨pre, b, post, a, z, hbs, -, -, hmin, hoff, hdata⟩ := layoutBlocks_split hsplit
  obtain ⟨hflat, hne⟩ := blocksOf_spec es
  have hb : b ≠ [] := hne b (by rw [hbs]; simp)
  constructor
  · -- the first key of a block is a key
    obtain ⟨e, rest, rfl⟩ := List.exists_cons_of_ne_nil hb
    rw [hmin]
    apply hkeys e
    rw [← hflat, hbs]
    simp
  · change ((layoutBlocks 0 (blocksOf es)).flatMap (·.2)).length < 2 ^ 63 at hlen
    rw [hdata, List.length_append] at hlen
    omega

/-- The four fields of a footer. -/
theorem read_footer {dataEnd bloomOffset indexOffset : Nat} (hd : dataEnd < 2 ^ 64)
    (hb : bloomOffset < 2 ^ 64) (hi : indexOffset < 2 ^ 64) :
    readLE 8 (encodeFooter dataEnd bloomOffset indexOffset) 0 = .ok dataEnd ∧
      readLE 8 (encodeFooter dataEnd bloomOffset indexOffset) 8 = .ok bloomOffset ∧
      readLE 8 (encodeFooter dataEnd bloomOffset indexOffset) 16 = .ok indexOffset ∧
      readLE 8 (encodeFooter dataEnd bloomOffset indexOffset) 24 = .ok magic := by
  generalize hfooter : encodeFooter dataEnd bloomOffset indexOffset = footer
  have h1 : footer = leBytes 8 dataEnd ++ (leBytes 8 bloomOffset ++
      (leBytes 8 indexOffset ++ leBytes 8 magic)) := by
    rw [← hfooter, encodeFooter]
  have h0 : footer = [] ++ (leBytes 8 dataEnd ++
      (leBytes 8 bloomOffset ++ (leBytes 8 indexOffset ++ leBytes 8 magic))) := by
    rw [h1, List.nil_append]
  have h2 : footer = (leBytes 8 dataEnd ++ leBytes 8 bloomOffset) ++
      (leBytes 8 indexOffset ++ leBytes 8 magic) := by
    rw [h1, List.append_assoc]
  have h3 : footer = (leBytes 8 dataEnd ++ (leBytes 8 bloomOffset ++ leBytes 8 indexOffset)) ++
      (leBytes 8 magic ++ []) := by
    rw [h1, List.append_nil, List.append_assoc, List.append_assoc]
  have hmagic : magic < 256 ^ 8 := by
    unfold magic
    norm_num
  exact ⟨readLE_eq h0 (by simp) (by omega), readLE_eq h1 (by simp) (by omega),
    readLE_eq h2 (by simp) (by omega), readLE_eq h3 (by simp) hmagic⟩

/-- A created file: data, filter, index and footer. -/
theorem create_eq {es : List Entry} {file : Bytes} (hcreate : create es = .ok file) :
    file = (dataLayout es).flatMap (·.2) ++ (buildBloom es ++
        (encodeIndex ((dataLayout es).map (·.1)) ++
          encodeFooter ((dataLayout es).flatMap (·.2)).length
            ((dataLayout es).flatMap (·.2)).length
            (((dataLayout es).flatMap (·.2)).length + (buildBloom es).length))) ∧
      file.length ≤ maxFileSize := by
  unfold create at hcreate
  simp only [buildBlocks_eq] at hcreate
  split at hcreate
  · next hmax =>
    have hfile := Except.ok.inj hcreate
    rw [hfile] at hmax
    exact ⟨hfile.symm, hmax⟩
  · exact absurd hcreate (by simp)

/-- The data section of a file that could be written is below the largest offset. -/
theorem length_data_lt {es : List Entry} {file : Bytes} (hcreate : create es = .ok file) :
    ((dataLayout es).flatMap (·.2)).length < 2 ^ 63 := by
  obtain ⟨hfile, hmax⟩ := create_eq hcreate
  have hlen := congrArg List.length hfile
  rw [List.length_append] at hlen
  unfold maxFileSize at hmax
  omega

/-- An entry takes at least eight bytes. -/
theorem length_le_layoutBlocks (offset : Nat) (bs : List (List Entry)) :
    8 * bs.flatten.length ≤ ((layoutBlocks offset bs).flatMap (·.2)).length := by
  induction bs generalizing offset with
  | nil => simp
  | cons b bs ih =>
    have hrest := ih (offset + (encodeBlock b (decide (bs ≠ []))).length)
    have hentries := length_le_flatMap_encodeEntry b
    have hblock := length_encodeBlock b (decide (bs ≠ []))
    rw [layoutBlocks, List.flatMap_cons, List.length_append, List.flatten_cons, List.length_append]
    show _ ≤ (encodeBlock b (decide (bs ≠ []))).length + _
    omega

/-- A file that can be written has so few entries that the bits of its filter can be
counted in 64 bits. -/
theorem buildBloom_bits_lt {es : List Entry} {file : Bytes} (hcreate : create es = .ok file) :
    (buildBloom es).length * 8 < 2 ^ 64 := by
  have hdata := length_le_layoutBlocks 0 (blocksOf es)
  have hlt := length_data_lt hcreate
  rw [(blocksOf_spec es).1, ← dataLayout] at hdata
  rw [length_buildBloom, bloomBitsPerKey]
  omega

/-- What the constructor has read before it comes to the index. -/
def unindexed (es : List Entry) (file : Bytes) : SSTable :=
  let data := (dataLayout es).flatMap (·.2)
  ⟨file, ⟨[], [], file.length, 0⟩, data.length, data.length,
    data.length + (buildBloom es).length, [], buildBloom es⟩

/-- **Opening a created file.** The constructor accepts the footer and reads the
filter back; what it returns is decided by the index alone. -/
theorem openFile_created {es : List Entry} {file : Bytes} (hcreate : create es = .ok file) :
    openFile file = (readIndex (encodeIndex ((dataLayout es).map (·.1)))
      ((blocksOf es).length % 2 ^ 32) 4).map (unindexed es file).withIndex := by
  obtain ⟨hfile, hmax⟩ := create_eq hcreate
  have hblocks : ((dataLayout es).map (·.1)).length = (blocksOf es).length := by
    rw [List.length_map, dataLayout, length_layoutBlocks]
  unfold unindexed
  rw [← hblocks]
  generalize (dataLayout es).flatMap (·.2) = data at hfile
  generalize (dataLayout es).map (·.1) = index at hfile
  have hbloom := List.length_pos_iff.mpr (buildBloom_ne_nil es)
  generalize buildBloom es = bloom at hfile hbloom
  have hindexLen : 4 ≤ (encodeIndex index).length := by
    simp [encodeIndex]
  have hlen : file.length =
      data.length + bloom.length + (encodeIndex index).length + footerSize := by
    rw [hfile]
    simp [encodeFooter, footerSize]
    omega
  have hbound : data.length + bloom.length < 2 ^ 63 := by
    unfold maxFileSize at hmax
    omega
  obtain ⟨hdataEnd, hbloomOffset, hindexOffset, hmagic⟩ :=
    read_footer (show data.length < 2 ^ 64 by omega) (show data.length < 2 ^ 64 by omega)
      (show data.length + bloom.length < 2 ^ 64 by omega)
  -- the footer, the filter and the index section are read one after the other
  have hfooter : readBytes file (file.length - footerSize) footerSize =
      encodeFooter data.length data.length (data.length + bloom.length) := by
    apply readBytes_eq (a := data ++ (bloom ++ encodeIndex index)) (z := [])
    · rw [hfile, List.append_nil, List.append_assoc, List.append_assoc]
    · simp only [List.length_append]
      omega
    · simp [encodeFooter, footerSize]
  have hfilter : slice (readBytes file data.length (data.length + bloom.length - data.length)) 0
      (data.length + bloom.length - data.length) = .ok bloom := by
    rw [readBytes_eq hfile rfl (by omega)]
    exact slice_eq (a := []) (List.append_nil bloom).symm rfl (by omega)
  have hindexData : readBytes file (data.length + bloom.length) (encodeIndex index).length =
      encodeIndex index := by
    apply readBytes_eq (a := data ++ bloom)
    · rw [hfile, List.append_assoc]
    · rw [List.length_append]
    · rfl
  have hcount : readLE 4 (encodeIndex index) 0 = .ok (index.length % 2 ^ 32) := by
    apply readLE_eq (a := []) (z := index.flatMap encodeIndexEntry)
    · rw [show (2 : Nat) ^ 32 = 256 ^ 4 by norm_num, leBytes_mod, encodeIndex, List.nil_append]
    · rfl
    · exact Nat.mod_lt _ (by norm_num)
  -- what is left between the index offset and the footer
  have hidxLen : (file.length - footerSize + 2 ^ 64 - (data.length + bloom.length)) % 2 ^ 64 =
      (encodeIndex index).length := by
    unfold maxFileSize at hmax
    omega
  have hreadFilter : readFilter file data.length (data.length + bloom.length) = .ok bloom := by
    rw [readFilter, if_pos (by omega), Machine.read_ample, Except.ok_bind, Machine.alloc_ample,
      Except.ok_bind, hfilter]
  have hloadIndex : loadIndex file (data.length + bloom.length) =
      readIndex (encodeIndex index) (index.length % 2 ^ 32) 4 := by
    rw [loadIndex, wrapping_eq (by omega), hidxLen]
    simp only [readSection, Machine.read_ample, Except.ok_bind, hindexData, hcount]
    rfl
  unfold openFile
  rw [if_neg (by omega)]
  simp only [Except.pure_eq_ok, Except.ok_bind, Machine.read_ample, hfooter, hdataEnd,
    hbloomOffset, hindexOffset, hmagic]
  rw [if_neg (by simp), hreadFilter, Except.ok_bind, if_neg (by omega), hloadIndex]
  -- the two outcomes of the index loop
  cases readIndex (encodeIndex index) (index.length % 2 ^ 32) 4 <;> rfl

/-- The index is read back when the keys fit their length fields. -/
theorem readIndex_created {es : List Entry} {file : Bytes} (hcreate : create es = .ok file)
    (hkeys : ∀ e ∈ es, e.1.length < 2 ^ 32) :
    readIndex (encodeIndex ((dataLayout es).map (·.1))) ((blocksOf es).length % 2 ^ 32) 4 =
      .ok (((dataLayout es).map (·.1)).take ((blocksOf es).length % 2 ^ 32)) := by
  have hblocks : ((dataLayout es).map (·.1)).length = (blocksOf es).length := by
    rw [List.length_map, dataLayout, length_layoutBlocks]
  apply readIndex_spec (a := leBytes 4 ((dataLayout es).map (·.1)).length) (z := [])
  · rw [encodeIndex, List.append_nil]
  · simp
  · rw [hblocks]
    exact Nat.mod_le _ _
  · exact index_fits hkeys (length_data_lt hcreate)

/-- The first index entry that is read has the beginning of the first key, cut to the
length that its field holds. -/
theorem head_readIndex {ie front : IndexEntry} {index read : List IndexEntry} {n : Nat}
    (h : readIndex (encodeIndex (ie :: index)) n 4 = .ok read) (hfront : read.head? = some front) :
    front.minKey <+: ie.minKey := by
  cases n with
  | zero =>
    obtain rfl := Except.ok.inj h
    exact absurd hfront (by simp)
  | succ n =>
    -- the buffer begins with the count, then with the length and the bytes of the first key
    have hbuf : encodeIndex (ie :: index) = leBytes 4 (ie :: index).length ++
        (leBytes 4 (ie.minKey.length % 2 ^ 32) ++ (ie.minKey ++ (leBytes 8 ie.offset ++
          index.flatMap encodeIndexEntry))) := by
      rw [show (2 : Nat) ^ 32 = 256 ^ 4 by norm_num, leBytes_mod, encodeIndex, List.flatMap_cons,
        encodeIndexEntry]
      simp only [List.append_assoc]
    have hlen := readLE_eq hbuf (length_leBytes ..).symm (Nat.mod_lt _ (by norm_num))
    rw [readIndex, hlen, Except.ok_bind] at h
    obtain ⟨minKey, hmin, h⟩ := Except.bind_eq_ok_iff.mp h
    obtain ⟨off, -, h⟩ := Except.bind_eq_ok_iff.mp h
    obtain ⟨rest, -, h⟩ := Except.bind_eq_ok_iff.mp h
    obtain rfl := Except.ok.inj h
    obtain rfl := Option.some.inj hfront
    obtain ⟨-, hslice⟩ := slice_ok hmin
    have hdrop : (encodeIndex (ie :: index)).drop (4 + 4) =
        ie.minKey ++ (leBytes 8 ie.offset ++ index.flatMap encodeIndexEntry) := by
      rw [hbuf, ← List.append_assoc]
      exact List.drop_left' (by simp)
    -- the length is stored in 32 bits, so what is read may be the front of the key only
    show minKey <+: ie.minKey
    rw [hslice, hdrop, List.take_append_of_le_length (Nat.mod_le ..)]
    exact List.take_prefix ..

/-- **The key range of an opened file**, whatever its lengths are: there is no largest
key, and no entry is below the smallest one. -/
theorem keyRange_created {es : List Entry} {file : Bytes} {t : SSTable}
    (hcreate : create es = .ok file) (hsorted : es.Pairwise fun a b => a.1 ≤ b.1)
    (hopen : openFile file = .ok t) :
    t.metaData.maxKey = [] ∧ ∀ e ∈ es, t.metaData.minKey ≤ e.1 := by
  rw [openFile_created hcreate] at hopen
  obtain ⟨read, hread, rfl⟩ := Except.map_eq_ok_iff.mp hopen
  -- without an index the range begins with the empty key
  cases hfront : read.head? with
  | none =>
    rw [withIndex, hfront]
    exact ⟨rfl, fun e _ => not_lt.mp (List.not_lt_nil e.1)⟩
  | some front =>
    rw [withIndex, hfront]
    refine ⟨rfl, fun e he => ?_⟩
    cases es with
    | nil => exact absurd he List.not_mem_nil
    | cons first rest =>
      have hindex : ∃ index, (dataLayout (first :: rest)).map (·.1) = ⟨first.1, 0⟩ :: index := by
        rw [dataLayout, ← buildBlocks_eq, buildBlocks, List.map_cons]
        exact ⟨_, rfl⟩
      obtain ⟨index, hindex⟩ := hindex
      rw [hindex] at hread
      -- a front of the first key is not above it
      have hprefix : front.minKey ≤ first.1 := not_lt.mp (head_readIndex hread hfront).le
      rcases List.mem_cons.mp he with rfl | he
      · exact hprefix
      · exact hprefix.trans ((List.pairwise_cons.mp hsorted).1 e he)

/-- Opening a created file whose keys fit their length fields. -/
theorem openFile_readBack {es : List Entry} {file : Bytes} (hcreate : create es = .ok file)
    (hsorted : es.Pairwise fun a b => a.1 < b.1) (hkeys : ∀ e ∈ es, e.1.length < 2 ^ 32) :
    ∃ t, openFile file = .ok t ∧ t.ReadBack es := by
  have hfile := (create_eq hcreate).1
  have hdata := length_data_lt hcreate
  have hbits := buildBloom_bits_lt hcreate
  have hopen := openFile_created hcreate
  rw [readIndex_created hcreate hkeys] at hopen
  refine ⟨_, hopen, ?_⟩
  unfold withIndex
  split
  · next front hhead =>
    exact ⟨hsorted, ⟨_, hfile⟩, rfl, hdata, rfl, hbits, rfl, by rw [hhead]; rfl, rfl⟩
  · next hhead =>
    exact ⟨hsorted, ⟨_, hfile⟩, rfl, hdata, rfl, hbits, (List.head?_eq_none_iff.mp hhead).symm,
      rfl, rfl⟩

/-- **Opening a created file** whose blocks fit their size fields: the constructor returns a
table that has read back what was written. -/
theorem openFile_create {es : List Entry} {file : Bytes} (hcreate : create es = .ok file)
    (hsorted : es.Pairwise fun a b => a.1 < b.1) (hfit : BlocksFit es) :
    ∃ t, openFile file = .ok t ∧ t.OpenedOn es := by
  obtain ⟨t, hopen, ht⟩ := openFile_readBack hcreate hsorted fun e he => (hfit.small e he).1
  exact ⟨t, hopen, ht, hfit⟩

end SSTable

end Zenith
