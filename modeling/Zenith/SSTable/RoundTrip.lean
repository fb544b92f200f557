import Zenith.SSTable.Scan

/-!
# Zenith — the round trip of a table file

Opening a file that `create` wrote recovers the block index, the filter and, through a scan
from the empty key, every entry in order. The one field that limits this is the number of
blocks, which the writer truncates to 32 bits: a table of `2 ^ 32` blocks is read back
without any index (`index_lost`).

What is recovered is compared with what was built: each index entry has the first key of a
block and points at its bytes, in the order of the blocks, and the blocks together are the
entries. A scan then does not need the entries to be known to it; it goes from block to
block by the index.

`index_lost` needs a table that nobody could build to look at. Its entries are given by a
function, four bytes of key and four thousand of value, each of which fills a block of its
own; sizes are computed from their number, and the file turns out to be below the largest
size of a file.

Main result: `table_round_trip`.
-/

namespace Zenith

open Bytes

namespace SSTable

/-- The `i`-th block of a data section: its first key, and the length of the
blocks in front of it as its offset. -/
theorem layoutBlocks_get {offset : Nat} {bs : List (List Entry)} {i : Nat} {p : IndexEntry × Bytes}
    (h : (layoutBlocks offset bs)[i]? = some p) :
    (∃ b, bs[i]? = some b ∧ p.1.minKey = firstKey b) ∧
      p.1.offset = offset + (((layoutBlocks offset bs).take i).flatMap (·.2)).length := by
  -- by induction on the number of the block; the offset moves on by its length
  induction i generalizing offset bs with
  | zero =>
    cases bs with
    | nil => exact absurd h (by simp [layoutBlocks])
    | cons b bs =>
      rw [layoutBlocks, List.getElem?_cons_zero, Option.some_inj] at h
      rw [← h]
      exact ⟨⟨b, rfl, rfl⟩, rfl⟩
  | succ i ih =>
    cases bs with
    | nil => exact absurd h (by simp [layoutBlocks])
    | cons b bs =>
      rw [layoutBlocks, List.getElem?_cons_succ] at h
      obtain ⟨hb, hoff⟩ := ih h
      refine ⟨hb, ?_⟩
      rw [layoutBlocks, List.take_succ_cons, List.flatMap_cons, List.length_append, hoff]
      exact Nat.add_assoc _ _ _

/-- **Round trip.** A table is read back with one index entry for each block, which has the
first key of the block and points at its bytes, with the filter that was written, and a scan
of all keys returns the entries.

Hypotheses:
* `hsorted` — the entries are in strictly ascending order of keys;
* `hfit` — the blocks fit their size fields;
* `hcount` — there are fewer than `2 ^ 32` blocks, for their number is stored in 32 bits;
* `hcreate` — the file is the one that `create` writes. -/
theorem table_round_trip {es : List Entry} {file : Bytes}
    (hsorted : es.Pairwise fun a b => a.1 < b.1) (hfit : BlocksFit es)
    (hcount : (blocksOf es).length < 2 ^ 32) (hcreate : create es = .ok file) :
    ∃ t, openFile file = .ok t ∧ (blocksOf es).flatten = es ∧
      t.index.length = (blocksOf es).length ∧
      (∀ i ie, t.index[i]? = some ie → ∃ b data, (blocksOf es)[i]? = some b ∧
        (buildBlocks 0 es)[i]? = some (ie, data) ∧ ie.minKey = firstKey b ∧
        ie.offset = (((buildBlocks 0 es).take i).flatMap (·.2)).length ∧
        readBytes file ie.offset data.length = data) ∧
      t.bloomFilter = buildBloom es ∧
      ∀ hi, (∀ e, es.getLast? = some e → e.1 ≤ hi) → t.scan [] hi = .ok es := by
  obtain ⟨t, hopen, h⟩ := openFile_create hcreate hsorted hfit
  have hindex : t.index = (dataLayout es).map (·.1) := by
    rw [h.index, Nat.mod_eq_of_lt hcount, List.take_of_length_le]
    rw [List.length_map, dataLayout, length_layoutBlocks]
  have hfile : ∃ z, file = (dataLayout es).flatMap (·.2) ++ z := by
    unfold create at hcreate
    dsimp only at hcreate
    split at hcreate
    · exact ⟨_, by rw [← Except.ok.inj hcreate, buildBlocks_eq]; rfl⟩
    · exact absurd hcreate (by simp)
  refine ⟨t, hopen, (blocksOf_spec es).1, ?_, ?_, h.bloom, ?_⟩
  · rw [hindex, List.length_map, dataLayout, length_layoutBlocks]
  · intro i ie hie
    rw [hindex, List.getElem?_map] at hie
    obtain ⟨⟨ie', data⟩, hp, rfl⟩ := Option.map_eq_some_iff.mp hie
    obtain ⟨⟨b, hb, hmin⟩, hoff⟩ := layoutBlocks_get hp
    rw [buildBlocks_eq, ← dataLayout]
    refine ⟨b, data, hb, hp, hmin, by rw [hoff, Nat.zero_add]; rfl, ?_⟩
    -- the data section, cut in front of the block
    obtain ⟨z, hz⟩ := hfile
    obtain ⟨hi, hget⟩ := List.getElem?_eq_some_iff.mp hp
    have hcut : dataLayout es =
        (dataLayout es).take i ++ (ie', data) :: (dataLayout es).drop (i + 1) := by
      rw [← hget, ← List.drop_eq_getElem_cons hi, List.take_append_drop]
    apply readBytes_eq (a := ((dataLayout es).take i).flatMap (·.2))
      (z := ((dataLayout es).drop (i + 1)).flatMap (·.2) ++ z)
    · rw [hz]
      conv_lhs => rw [hcut]
      simp only [List.flatMap_append, List.flatMap_cons, List.append_assoc]
    · rw [hoff, Nat.zero_add]
      rfl
    · rfl
  -- every key is in the range of the scan
  · intro hi hlast
    rw [h.scan_all hcount hi, List.filter_eq_self.mpr]
    intro e he
    have hne := List.ne_nil_of_mem he
    have hle := (le_getLast hsorted he hne).trans (hlast _ (List.getLast?_eq_some_getLast hne))
    rw [inRange, Bool.and_eq_true, decide_eq_true_eq, decide_eq_true_eq]
    exact ⟨not_lt.mp (List.not_lt_nil e.1), hle⟩

/-- An empty key, and an entry that needs a block of its own. -/
theorem table_round_trip_two_blocks :
    ∃ file t, create [([], [1]), ([107], List.replicate 4096 0)] = .ok file ∧
      openFile file = .ok t ∧ t.index.length = 2 ∧
      t.scan [] [107] = .ok [([], [1]), ([107], List.replicate 4096 0)] := by
  obtain ⟨file, hcreate⟩ := Except.exists_eq_ok
    (x := create [([], [1]), ([107], List.replicate 4096 0)]) (by decide +kernel)
  obtain ⟨t, hopen, -, hlen, -, -, hscan⟩ :=
    table_round_trip (by decide) (by decide +kernel) (by decide +kernel) hcreate
  refine ⟨file, t, hcreate, hopen, hlen.trans (by decide +kernel), hscan [107] ?_⟩
  intro e he
  obtain rfl := Option.some.inj he
  decide

/-! ## A table with too many blocks -/

/-- Four bytes, most significant first. -/
def rankKey (n : Nat) : Bytes :=
  [UInt8.ofNat (n / 2 ^ 24), UInt8.ofNat (n / 2 ^ 16 % 256), UInt8.ofNat (n / 2 ^ 8 % 256),
    UInt8.ofNat (n % 256)]

/-- Keys of this kind are ordered as their numbers. -/
theorem rankKey_lt {m n : Nat} (hmn : m < n) (hn : n < 2 ^ 32) : rankKey m < rankKey n := by
  have hbyte : ∀ {a b : Nat}, b < 256 → a < b → UInt8.ofNat a < UInt8.ofNat b := by
    intro a b hb hab
    rw [UInt8.lt_iff_toNat_lt, UInt8.toNat_ofNat', UInt8.toNat_ofNat']
    omega
  unfold rankKey
  simp only [List.cons_lt_cons_iff]
  -- the first byte in which they differ decides
  by_cases h24 : m / 2 ^ 24 = n / 2 ^ 24
  · refine Or.inr ⟨by rw [h24], ?_⟩
    by_cases h16 : m / 2 ^ 16 % 256 = n / 2 ^ 16 % 256
    · refine Or.inr ⟨by rw [h16], ?_⟩
      by_cases h8 : m / 2 ^ 8 % 256 = n / 2 ^ 8 % 256
      · refine Or.inr ⟨by rw [h8], ?_⟩
        exact Or.inl (hbyte (by omega) (by omega))
      · exact Or.inl (hbyte (by omega) (by omega))
    · exact Or.inl (hbyte (by omega) (by omega))
  · exact Or.inl (hbyte (by omega) (by omega))

/-- An entry that takes 4108 bytes in a block. -/
def bigEntry (n : Nat) : Entry := (rankKey n, List.replicate 4096 0)

/-- The entries of a table with `n` blocks. -/
def bigEntries (n : Nat) : List Entry := (List.range n).map bigEntry

/-- Two length fields, four bytes of key and 4096 of value. -/
theorem length_encodeEntry_bigEntry (n : Nat) : (encodeEntry (bigEntry n)).length = 4108 := by
  rw [length_encodeEntry, bigEntry, List.length_replicate]
  rfl

/-- No entry fits behind one that is larger than a block. -/
theorem fillBlock_bigEntry (n : Nat) (rest : List Entry) :
    fillBlock .start (bigEntry n :: rest) = (BlockBuilder.start.add (bigEntry n), rest) := by
  have hopen : BlockBuilder.start.pushRestart = .start := rfl
  have hfirst : BlockBuilder.start.full (bigEntry n) = false := rfl
  rw [fillBlock, hopen, hfirst, if_neg Bool.false_ne_true]
  cases rest with
  | nil => rfl
  | cons kv rest =>
    have hnum : (BlockBuilder.start.add (bigEntry n)).numEntries = 1 := rfl
    have hpush : (BlockBuilder.start.add (bigEntry n)).pushRestart =
        BlockBuilder.start.add (bigEntry n) := by
      rw [BlockBuilder.pushRestart, hnum, if_neg (by decide)]
    have hbuf : (BlockBuilder.start.add (bigEntry n)).dataBuf.length = 4116 := by
      show (leBytes 8 0 ++ encodeEntry (bigEntry n)).length = 4116
      rw [List.length_append, length_encodeEntry_bigEntry, length_leBytes]
    have hfull : (BlockBuilder.start.add (bigEntry n)).full kv = true := by
      rw [BlockBuilder.full, hnum, hbuf, Bool.and_eq_true, decide_eq_true_eq, decide_eq_true_eq]
      unfold blockTargetBytes
      omega
    rw [fillBlock, hpush, if_pos hfull]

/-- Each entry has a block of its own. -/
theorem blocksOf_bigEntries (ns : List Nat) :
    blocksOf (ns.map bigEntry) = ns.map fun n => [bigEntry n] := by
  induction ns with
  | nil => rw [List.map_nil, List.map_nil, blocksOf]
  | cons n ns ih =>
    rw [List.map_cons, List.map_cons, blocksOf, fillBlock_bigEntry, ih]
    rfl

/-- The sizes of the sections of a table whose blocks are all alike. -/
theorem length_layout_bigEntries (offset : Nat) (ns : List Nat) :
    ((layoutBlocks offset (ns.map fun n => [bigEntry n])).flatMap (·.2)).length =
        4124 * ns.length ∧
      (((layoutBlocks offset (ns.map fun n => [bigEntry n])).map (·.1)).flatMap
        encodeIndexEntry).length = 16 * ns.length := by
  induction ns generalizing offset with
  | nil => exact ⟨rfl, rfl⟩
  | cons n ns ih =>
    have hblock : ∀ closed, (encodeBlock [bigEntry n] closed).length = 4124 := by
      intro closed
      have hrestarts : (blockRestarts [bigEntry n] closed).length = 1 := by
        simp [blockRestarts, restartsOf, dangling]
      rw [length_encodeBlock, hrestarts, List.flatMap_cons, List.flatMap_nil, List.append_nil,
        length_encodeEntry_bigEntry]
    have hentry : (encodeIndexEntry ⟨firstKey [bigEntry n], offset⟩).length = 16 := by
      have hkey : (firstKey [bigEntry n]).length = 4 := rfl
      simp only [encodeIndexEntry, List.length_append, length_leBytes, hkey]
    rw [List.map_cons, layoutBlocks, List.flatMap_cons, List.map_cons, List.flatMap_cons,
      List.length_append, List.length_append, List.length_cons]
    dsimp only
    obtain ⟨hdata, hindex⟩ := ih (offset + (encodeBlock [bigEntry n]
      (decide ((ns.map fun n => [bigEntry n]) ≠ []))).length)
    rw [hblock, hentry] at *
    omega

/-- **The lost index.** A table of exactly `2 ^ 32` blocks is read back without a
single index entry. -/
theorem index_lost :
    (bigEntries (2 ^ 32)).Pairwise (fun a b => a.1 < b.1) ∧ BlocksFit (bigEntries (2 ^ 32)) ∧
      (blocksOf (bigEntries (2 ^ 32))).length = 2 ^ 32 ∧
      ∃ file t, create (bigEntries (2 ^ 32)) = .ok file ∧ openFile file = .ok t ∧ t.index = [] := by
  have hsorted : (bigEntries (2 ^ 32)).Pairwise fun a b => a.1 < b.1 := by
    unfold bigEntries
    rw [List.pairwise_map, List.pairwise_iff_getElem]
    intro i j _ hj hij
    rw [List.length_range] at hj
    rw [List.getElem_range, List.getElem_range]
    exact rankKey_lt hij hj
  -- each entry is small enough for its block
  have hfit : BlocksFit (bigEntries (2 ^ 32)) := by
    apply blocksFit_of_entries
    intro e he
    obtain ⟨n, -, rfl⟩ := List.mem_map.mp he
    have hkey : (bigEntry n).1.length = 4 := rfl
    have hvalue : (bigEntry n).2.length = 4096 := List.length_replicate ..
    unfold EntryFits
    omega
  have hcount : (blocksOf (bigEntries (2 ^ 32))).length = 2 ^ 32 := by
    rw [bigEntries, blocksOf_bigEntries, List.length_map, List.length_range]
  -- the file is below the largest size
  have hcreate : ∃ file, create (bigEntries (2 ^ 32)) = .ok file := by
    obtain ⟨hdata, hindex⟩ := length_layout_bigEntries 0 (List.range (2 ^ 32))
    have hbloom := length_buildBloom (bigEntries (2 ^ 32))
    have hlen : (bigEntries (2 ^ 32)).length = 2 ^ 32 := by
      rw [bigEntries, List.length_map, List.length_range]
    rw [hlen, bloomBitsPerKey] at hbloom
    rw [← blocksOf_bigEntries, ← bigEntries, List.length_range] at hdata hindex
    unfold create
    dsimp only
    rw [buildBlocks_eq, if_pos]
    · exact ⟨_, rfl⟩
    · simp only [List.length_append, encodeIndex, encodeFooter, length_leBytes, hdata, hindex, hbloom]
      unfold maxFileSize
      omega
  obtain ⟨file, hcreate⟩ := hcreate
  obtain ⟨t, hopen, h⟩ := openFile_create hcreate hsorted hfit
  refine ⟨hsorted, hfit, hcount, file, t, hcreate, hopen, ?_⟩
  -- the count of blocks wraps to 0
  rw [h.index, hcount, Nat.mod_self, List.take_zero]

end SSTable

end Zenith
