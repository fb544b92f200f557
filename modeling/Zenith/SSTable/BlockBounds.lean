import Zenith.SSTable.Scan

/-!
# Zenith — decoding stays inside a block

`find_in_block` and `scan_block` trust every length and offset of the block they have read.
In a block that `create` wrote they may: each restart slot, the key it points at and each
record of the walk lies inside the block, and the walk from a restart reads whole records
until it ends exactly at the restart array. That holds for the dangling restart as well,
which points at the array and is read as a key of eight bytes.

`DecodesInside` states this of a block, with one clause for each kind of read that the two
functions make. It speaks of all the reads that they could make and not only of those of one
lookup: every slot of the array can be probed, and from every slot the walk goes through.
`ReadsWhole` connects it to the file: at the offset of an index entry the header is read,
the size it gives is that of the block, and the block is read as a whole.

The size of a block is written in 32 bits. A single entry of four gigabytes makes a block
whose size field says less than its length, and the readers then decode the front of the
block as if it were all of it. `BlocksFit` excludes such entries, and nothing else is
assumed of them but their order.

What the readers do on blocks that nobody wrote is the subject of
`Zenith.SSTable.UntrustedBlock`.

Main results:

* `encodeBlock_decodesInside` — what the readers may rely on in a block;
* `block_decoding_in_bounds` — and what they read of a created table;
* `long_block_out_of_bounds` — a block that does not fit its size field.
-/

namespace Zenith

open Bytes

namespace SSTable

-- ---------------------------------------------------------------------------
-- One block
-- ---------------------------------------------------------------------------

/-- Decoding `block`, which holds the entries `es`, never leaves it. The restart
array starts at `restartsPtr` and has `count` slots. -/
structure DecodesInside (block : Bytes) (es : List Entry) (restartsPtr count : Nat) : Prop where
  array : restartArray block block.length = .ok (restartsPtr, count)
  array_end : restartsPtr + 4 * count + 4 = block.length
  count_pos : 0 < count
  /-- every slot and the key it points at -/
  probe : ∀ mid < count, ∃ off klen midKey, readLE 4 block (restartsPtr + mid * 4) = .ok off ∧
    readLE 4 block off = .ok klen ∧ slice block (off + 4) klen = .ok midKey
  /-- the search ends at one of the slots -/
  seek : ∀ key, ∃ idx < count,
    seekRestart block restartsPtr count key = readLE 4 block (restartsPtr + idx * 4)
  /-- from each of them the walk reads whole records up to the array -/
  walk : ∀ idx < count, ∃ off j, readLE 4 block (restartsPtr + idx * 4) = .ok off ∧
    off ≤ restartsPtr ∧ Walks block restartsPtr off (es.drop j)

section Block

variable {es : List Entry} {closed : Bool}

/-- The key at a restart is read inside the block. -/
theorem probe_inside (hne : es ≠ []) (hsize : (encodeBlock es closed).length < 2 ^ 32) {mid : Nat}
    (hmid : mid < (blockRestarts es closed).length) :
    ∃ off klen midKey,
      readLE 4 (encodeBlock es closed) (entryOffset es es.length + mid * 4) = .ok off ∧
      readLE 4 (encodeBlock es closed) off = .ok klen ∧
      slice (encodeBlock es closed) (off + 4) klen = .ok midKey := by
  obtain ⟨klen, hklen, hkey⟩ := readRestartKey hne hsize hmid
  exact ⟨_, klen, _, readRestart hne hsize hmid, hklen, hkey⟩

/-- The restart search ends at a slot of the array. -/
theorem seekRestart_slot (hne : es ≠ []) (hsize : (encodeBlock es closed).length < 2 ^ 32)
    (key : Bytes) :
    ∃ idx < (blockRestarts es closed).length,
      seekRestart (encodeBlock es closed) (entryOffset es es.length)
          (blockRestarts es closed).length key =
        readLE 4 (encodeBlock es closed) (entryOffset es es.length + idx * 4) := by
  obtain ⟨left, hleft, -, hle, -, -⟩ := BinarySearch.bsearch_spec
    (q := fun j => decide (restartKey es j < key))
    (fun j _ hj => restartBefore_eq hne hsize key hj) (Nat.zero_le _)
  have hpos := length_blockRestarts_pos es closed
  refine ⟨if left > 0 then left - 1 else 0, by split <;> omega, ?_⟩
  rw [seekRestart, hleft, Except.ok_bind]

/-- **What the readers rely on** holds of every block that fits its size field. -/
theorem encodeBlock_decodesInside (hne : es ≠ [])
    (hsize : (encodeBlock es closed).length < 2 ^ 32) :
    DecodesInside (encodeBlock es closed) es (entryOffset es es.length)
      (blockRestarts es closed).length where
  array := restartArray_eq hsize
  array_end := by
    rw [length_encodeBlock, entryOffset_length]
  count_pos := length_blockRestarts_pos es closed
  probe mid hmid := probe_inside hne hsize hmid
  seek key := seekRestart_slot hne hsize key
  walk idx hidx := by
    have hle := entryOffset_le es (16 * idx)
    rw [← entryOffset_length] at hle
    exact ⟨_, 16 * idx, readRestart hne hsize hidx, hle, walks_at hsize (16 * idx)⟩

end Block

-- ---------------------------------------------------------------------------
-- The blocks of a table
-- ---------------------------------------------------------------------------

/-- The offsets that lookups and scans pass to the block readers. -/
def blockOffsets (t : SSTable) : List Nat :=
  if t.index = [] then [0] else t.index.map (·.offset)

/-- The two reads of `find_in_block` and `scan_block` at `offset` return the header
of `block` and the whole of it. -/
structure ReadsWhole (t : SSTable) (offset : Nat) (block : Bytes) : Prop where
  inside : offset + block.length ≤ t.dataEnd
  no_wrap : offset + block.length < 2 ^ 64
  header : readBytes t.file offset 8 = block.take 8
  size : readLE 4 (block.take 8) 4 = .ok block.length
  whole : readBytes t.file offset block.length = block

/-- What the index search leaves of the index is part of it. -/
theorem seekIndex_subset (index : List IndexEntry) (key : Bytes) :
    seekIndex index key ⊆ index := by
  rw [seekIndex]
  exact List.drop_subset _ _

/-- Only an empty index leads nowhere. -/
theorem seekIndex_ne_nil {index : List IndexEntry} (hne : index ≠ []) (key : Bytes) :
    seekIndex index key ≠ [] := by
  have hpos := List.length_pos_iff.mpr hne
  obtain ⟨-, hle, -⟩ := BinarySearch.search_spec (q := notAbove index key)
    (Nat.zero_le index.length)
  rw [← upperBound] at hle
  rw [seekIndex, Ne, List.drop_eq_nil_iff]
  omega

/-- A lookup reads at most one block, at one of the offsets. -/
theorem get_eq_findInBlock {t : SSTable} (hbits : t.bloomFilter.length * 8 < 2 ^ 64)
    (key : Bytes) :
    t.get key = .ok none ∨ ∃ offset ∈ t.blockOffsets, t.get key = t.findInBlock offset key := by
  rw [SSTable.get, if_neg hbits.not_ge]
  -- the filter may end the lookup; otherwise the index search gives the offset
  split
  · exact .inl rfl
  · right
    split
    · next hseek =>
      refine ⟨0, ?_, rfl⟩
      have hnil : t.index = [] := by
        by_contra hne
        exact seekIndex_ne_nil hne key hseek
      rw [blockOffsets, if_pos hnil]
      exact List.mem_singleton_self 0
    · next ie rest hseek =>
      have hmem : ie ∈ t.index := seekIndex_subset t.index key (by rw [hseek]; simp)
      refine ⟨ie.offset, ?_, rfl⟩
      rw [blockOffsets, if_neg (List.ne_nil_of_mem hmem)]
      exact List.mem_map_of_mem hmem

section Table

variable {t : SSTable} {es : List Entry}

/-- An index entry leads to a block that is read whole and decoded inside. -/
theorem OpenedOn.decodes_at (h : t.OpenedOn es) {ipre isuf : List IndexEntry} {ie : IndexEntry}
    (hsplit : (dataLayout es).map (·.1) = ipre ++ ie :: isuf) :
    ∃ b ∈ blocksOf es, ∃ block restartsPtr count,
      t.ReadsWhole ie.offset block ∧ DecodesInside block b restartsPtr count := by
  obtain ⟨pre, b, post, hbs, -, -, -, hend, hread⟩ := h.block_at hsplit
  obtain ⟨-, hne, -⟩ := h.entries hbs
  have hsize := h.length_lt hbs
  have hend' := h.dataEnd_lt
  have hlen := length_encodeBlock b (decide (post ≠ []))
  obtain ⟨-, hfield⟩ := read_header b (decide (post ≠ []))
  rw [Nat.mod_eq_of_lt hsize] at hfield
  refine ⟨b, by rw [hbs]; simp, _, _, _, ?_, encodeBlock_decodesInside hne hsize⟩
  exact {
    inside := hend
    no_wrap := by omega
    header := hread 8 (by omega)
    size := hfield
    whole := by rw [hread _ le_rfl, List.take_length]
  }

/-- Every offset that is not behind the data leads to such a block. -/
theorem OpenedOn.decodes (h : t.OpenedOn es) {offset : Nat} (hoffset : offset ∈ t.blockOffsets)
    (hhead : offset + 8 ≤ t.dataEnd) :
    ∃ b ∈ blocksOf es, ∃ block restartsPtr count,
      t.ReadsWhole offset block ∧ DecodesInside block b restartsPtr count := by
  rw [blockOffsets] at hoffset
  split at hoffset
  · -- without an index the first block is read, if there is one
    obtain rfl := List.mem_singleton.mp hoffset
    cases hbs : blocksOf es with
    | nil =>
      have hend := h.dataEnd
      rw [dataLayout, hbs, layoutBlocks, List.flatMap_nil, List.length_nil] at hend
      omega
    | cons b post =>
      rw [← hbs]
      have hfirst : (dataLayout es).map (·.1) = [] ++ ⟨firstKey b, 0⟩ ::
          (layoutBlocks (0 + (encodeBlock b (decide (post ≠ []))).length) post).map (·.1) := by
        rw [dataLayout, hbs, layoutBlocks, List.map_cons]
        rfl
      exact h.decodes_at hfirst
  · obtain ⟨ie, hie, rfl⟩ := List.mem_map.mp hoffset
    obtain ⟨ipre, isuf, hindex⟩ := List.append_of_mem hie
    have hall := h.index_split
    rw [hindex, List.append_assoc, List.cons_append] at hall
    exact h.decodes_at hall

end Table

/-- **Decoding stays inside the blocks of a created table.** The table opens, lookups and
scans return, and they read blocks only at the offsets of the index. At each of these
offsets the size field gives the whole of a block, and no byte outside of it is read: the
walk advances by whole records and ends exactly at the restart array. An offset without room
for a header is the one exception; it belongs to a table without blocks, and nothing is read
there.

Hypotheses:
* `hsorted` — the entries are in strictly ascending order of keys;
* `hfit` — their blocks fit their size fields, without which a block ends before its restart
  array;
* `hcreate` — the file is the one that `create` writes. -/
theorem block_decoding_in_bounds {es : List Entry} {file : Bytes}
    (hsorted : es.Pairwise fun a b => a.1 < b.1) (hfit : BlocksFit es)
    (hcreate : create es = .ok file) :
    ∃ t, openFile file = .ok t ∧
      (∀ key, ∃ r, t.get key = .ok r) ∧ (∀ start stop, ∃ rows, t.scan start stop = .ok rows) ∧
      (∀ key, t.get key = .ok none ∨ ∃ offset ∈ t.blockOffsets,
        t.get key = t.findInBlock offset key) ∧
      ∀ offset ∈ t.blockOffsets, t.dataEnd < offset + 8 ∨
        ∃ b ∈ blocksOf es, ∃ block restartsPtr count,
          t.ReadsWhole offset block ∧ DecodesInside block b restartsPtr count := by
  obtain ⟨t, hopen, h⟩ := openFile_create hcreate hsorted hfit
  refine ⟨t, hopen, ?_, ?_, get_eq_findInBlock h.bits_lt, ?_⟩
  · intro key
    obtain ⟨r, hr, -⟩ := h.get_sound key
    exact ⟨r, hr⟩
  · intro start stop
    obtain ⟨rows, hrows, -⟩ := h.scan_sublist start stop
    exact ⟨rows, hrows⟩
  · intro offset hoffset
    rcases Nat.lt_or_ge t.dataEnd (offset + 8) with hlt | hge
    · exact .inl hlt
    · exact .inr (h.decodes hoffset hge)

/-- A table of three blocks, the first of which is closed at a restart boundary. -/
theorem block_decoding_in_bounds_boundary : ∃ file t, create boundarySample = .ok file ∧
    openFile file = .ok t ∧ t.blockOffsets.length = 3 ∧ ∀ offset ∈ t.blockOffsets,
      ∃ b ∈ blocksOf boundarySample, ∃ block restartsPtr count,
        t.ReadsWhole offset block ∧ DecodesInside block b restartsPtr count := by
  obtain ⟨file, hcreate⟩ := Except.exists_eq_ok (x := create boundarySample) (by decide +kernel)
  have hat : ∀ t, (create boundarySample >>= openFile) = .ok t → t.blockOffsets.length = 3 ∧
      ∀ offset ∈ t.blockOffsets, offset + 8 ≤ t.dataEnd := by decide +kernel
  have hsorted : boundarySample.Pairwise fun a b => a.1 < b.1 := by decide +kernel
  obtain ⟨t, hopen, -, -, -, hall⟩ :=
    block_decoding_in_bounds hsorted (by decide +kernel) hcreate
  obtain ⟨hcount, hend⟩ := hat t (by rw [hcreate]; exact hopen)
  refine ⟨file, t, hcreate, hopen, hcount, fun offset hoffset => ?_⟩
  exact (hall offset hoffset).resolve_left (hend offset hoffset).not_gt

-- ---------------------------------------------------------------------------
-- A block that is too long for its size field
-- ---------------------------------------------------------------------------

/-- One entry makes one block. -/
theorem blocksOf_singleton (e : Entry) : blocksOf [e] = [[e]] := by
  have hfill : fillBlock .start [e] = (BlockBuilder.start.add e, []) := by
    have hfirst : BlockBuilder.start.pushRestart.full e = false := rfl
    rw [fillBlock, hfirst, if_neg Bool.false_ne_true]
    rfl
  rw [blocksOf, hfill, blocksOf]
  rfl

/-- Header, lengths, one restart and the number of restarts take 24 bytes. -/
theorem length_encodeBlock_singleton (e : Entry) (closed : Bool) :
    (encodeBlock [e] closed).length = 24 + e.1.length + e.2.length := by
  have hrestarts : (blockRestarts [e] closed).length = 1 := by
    simp [blockRestarts, restartsOf, dangling]
  have hentry := length_encodeEntry e
  rw [length_encodeBlock, hrestarts, List.flatMap_cons, List.flatMap_nil, List.append_nil]
  omega

/-- An entry that makes a block of `2 ^ 32` bytes. -/
def longEntry : Entry := ([107], List.replicate (2 ^ 32 - 25) 0)

/-- It is too long by one byte for the size field. -/
theorem length_longBlock (closed : Bool) : (encodeBlock [longEntry] closed).length = 2 ^ 32 := by
  have hkey : longEntry.1.length = 1 := rfl
  have hvalue : longEntry.2.length = 2 ^ 32 - 25 := List.length_replicate ..
  rw [length_encodeBlock_singleton, hkey, hvalue]
  norm_num

/-- The file is still below the largest size. -/
theorem create_longEntry : ∃ file, create [longEntry] = .ok file := by
  have hbloom := length_buildBloom [longEntry]
  have hblock := length_longBlock (decide (([] : List (List Entry)) ≠ []))
  have hkey : (firstKey [longEntry]).length = 1 := rfl
  rw [List.length_singleton, bloomBitsPerKey] at hbloom
  unfold create
  dsimp only
  rw [buildBlocks_eq, blocksOf_singleton, layoutBlocks, layoutBlocks, if_pos]
  · exact ⟨_, rfl⟩
  · simp only [List.flatMap_cons, List.flatMap_nil, List.map_cons, List.map_nil, List.append_nil,
      List.length_append, encodeIndex, encodeIndexEntry, encodeFooter, length_leBytes, hblock,
      hbloom, hkey]
    unfold maxFileSize
    omega

/-- The size field of such a block is zero, and a lookup then reads the number of
restarts from in front of the buffer. -/
theorem long_block_out_of_bounds :
    [longEntry].Pairwise (fun a b => a.1 < b.1) ∧ ∃ file t, create [longEntry] = .ok file ∧
      openFile file = .ok t ∧ t.get longEntry.1 = .error .overflow ∧
      t.scan longEntry.1 longEntry.1 = .error .overflow := by
  obtain ⟨file, hcreate⟩ := create_longEntry
  have hsorted : [longEntry].Pairwise fun a b => a.1 < b.1 := List.pairwise_singleton _ _
  have hkeys : ∀ e ∈ [longEntry], e.1.length < 2 ^ 32 := by
    intro e he
    rw [List.mem_singleton.mp he]
    exact Nat.lt_of_lt_of_le Nat.one_lt_two (by norm_num)
  obtain ⟨t, hopen, h⟩ := openFile_readBack hcreate hsorted hkeys
  obtain ⟨pre, b, post, block, hbs, -, hblock, hscan, hget, -⟩ :=
    h.scan_one (List.mem_singleton_self longEntry)
  have hb : b = [longEntry] := by
    have hmem : b ∈ blocksOf [longEntry] := by rw [hbs]; simp
    rw [blocksOf_singleton] at hmem
    exact List.mem_singleton.mp hmem
  -- the size field is zero, so the readers get an empty block
  rw [hb, length_longBlock, Nat.mod_self, List.take_zero] at hblock
  subst hblock
  exact ⟨hsorted, file, t, hcreate, hopen, hget, hscan⟩

end SSTable

end Zenith
