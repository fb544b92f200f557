import Zenith.SSTable.Block

/-!
# Zenith — the bloom filter of a sorted table

The filter of `sstable.cpp`: ten bits per key, seven hashes derived from one FNV hash. The
writer sets the bits of every key, the reader tests them.

Arithmetic of hashes wraps in 64 bits, so they are `UInt64` here. Bits are addressed by a
number that is below eight times the length of the filter; a filter has at least eight bits,
also when a table has no keys.

The proofs follow the writer's two loops: setting a bit keeps those that are set, so does
setting the bits of a key, and so does setting those of all keys. The hash functions play no
part in them beyond being functions.

Main result: `mayContain_buildBloom`, a filter answers yes for every key it was built from.
What it answers for other keys does not matter: a search without a filter would find nothing
either.
-/

namespace Zenith

open Bytes

namespace SSTable

/-- `BLOOM_BITS_PER_KEY`. -/
def bloomBitsPerKey : Nat := 10
/-- `BLOOM_HASHES`. -/
def bloomHashes : Nat := 7

/-- The FNV hash of a key. -/
def bloomHashCore (k : Bytes) : UInt64 :=
  k.foldl (fun h c => (h ^^^ c.toUInt64) * 1099511628211) 1469598103934665603

/-- The `i`-th hash: the core and `i` times a constant. -/
def bloomHash (k : Bytes) (i : Nat) : UInt64 :=
  bloomHashCore k + UInt64.ofNat i * 0x9e3779b97f4a7c15

/-- The mask of a bit inside its byte. -/
def bitMask (bit : Nat) : UInt8 := 1 <<< UInt8.ofNat (bit % 8)

/-- The writer sets a bit. -/
def setBit (bloom : Bytes) (bit : Nat) : Bytes := bloom.modify (bit / 8) (· ||| bitMask bit)

/-- The reader tests it. A bit behind the filter counts as clear. -/
def testBit (bloom : Bytes) (bit : Nat) : Bool := bloom.getD (bit / 8) 0 &&& bitMask bit != 0

/-- The bits of a key in a filter of `bloomBits` bits. -/
def keyBits (bloomBits : Nat) (key : Bytes) : List Nat :=
  (List.range bloomHashes).map fun i => (bloomHash key i).toNat % bloomBits

/-- Whether all bits of the key are set. A table without a filter may contain everything. -/
def mayContain (bloomFilter : Bytes) (key : Bytes) : Bool :=
  if bloomFilter = [] then true
  else (keyBits (bloomFilter.length * 8) key).all (testBit bloomFilter)

/-- The filter that `create` writes. -/
def buildBloom (entries : List Entry) : Bytes :=
  let rawBits := max (entries.length * bloomBitsPerKey) 8
  let bloomBytes := (rawBits + 7) / 8
  let bloomBits := bloomBytes * 8
  entries.foldl (fun bloom kv => (keyBits bloomBits kv.1).foldl setBit bloom)
    (List.replicate bloomBytes 0)

/-! ## Bits stay set -/

/-- A mask is not empty. -/
theorem bitMask_ne_zero (bit : Nat) : bitMask bit ≠ 0 := by
  have hall : ∀ i < 8, (1 : UInt8) <<< UInt8.ofNat i ≠ 0 := by decide
  exact hall (bit % 8) (Nat.mod_lt bit (by decide))

theorem or_and_distrib (a b c : UInt8) : (a ||| b) &&& c = a &&& c ||| b &&& c := by
  rw [← UInt8.toBitVec_inj]
  ext i
  simp [Bool.and_or_distrib_right]

/-- Setting a bit does not change the length. -/
@[simp] theorem length_setBit (bloom : Bytes) (bit : Nat) :
    (setBit bloom bit).length = bloom.length := by
  simp [setBit]

/-- A byte stays as it is, or gets the mask. -/
theorem getD_setBit (bloom : Bytes) (bit i : Nat) :
    (setBit bloom bit).getD i 0 = bloom.getD i 0 ∨
      (setBit bloom bit).getD i 0 = bloom.getD i 0 ||| bitMask bit := by
  rw [setBit, List.getD_eq_getElem?_getD, List.getD_eq_getElem?_getD, List.getElem?_modify]
  by_cases h : bit / 8 = i <;> cases hget : bloom[i]? <;> simp [h]

/-- Setting a bit clears no other. -/
theorem testBit_setBit_of_testBit {bloom : Bytes} {bit other : Nat}
    (h : testBit bloom other = true) : testBit (setBit bloom bit) other = true := by
  rw [testBit, bne_iff_ne] at h ⊢
  rcases getD_setBit bloom bit (other / 8) with heq | heq
  · rwa [heq]
  · rw [heq, or_and_distrib]
    intro hzero
    exact h (UInt8.or_eq_zero_iff.mp hzero).1

/-- The bit itself is set. -/
theorem testBit_setBit {bloom : Bytes} {bit : Nat} (h : bit / 8 < bloom.length) :
    testBit (setBit bloom bit) bit = true := by
  rw [testBit, bne_iff_ne, setBit, List.getD_eq_getElem?_getD, List.getElem?_modify_eq,
    List.getElem?_eq_getElem h]
  show (bloom[bit / 8] ||| bitMask bit) &&& bitMask bit ≠ 0
  rw [or_and_distrib, UInt8.and_self]
  intro hzero
  exact bitMask_ne_zero bit (UInt8.or_eq_zero_iff.mp hzero).2

/-- Nor does setting many. -/
@[simp] theorem length_foldl_setBit (bits : List Nat) (bloom : Bytes) :
    (bits.foldl setBit bloom).length = bloom.length := by
  induction bits generalizing bloom with
  | nil => rfl
  | cons bit bits ih => rw [List.foldl_cons, ih, length_setBit]

/-- Bits that are set stay set. -/
theorem testBit_foldl_of_testBit {bits : List Nat} {bloom : Bytes} {other : Nat}
    (h : testBit bloom other = true) : testBit (bits.foldl setBit bloom) other = true := by
  induction bits generalizing bloom with
  | nil => exact h
  | cons bit bits ih => exact ih (testBit_setBit_of_testBit h)

/-- Every bit of the list is set. -/
theorem testBit_foldl_of_mem {bits : List Nat} {bloom : Bytes} {bit : Nat} (hmem : bit ∈ bits)
    (h : bit / 8 < bloom.length) : testBit (bits.foldl setBit bloom) bit = true := by
  induction bits generalizing bloom with
  | nil => exact absurd hmem List.not_mem_nil
  | cons b bits ih =>
    rw [List.foldl_cons]
    rcases List.mem_cons.mp hmem with rfl | hmem
    · exact testBit_foldl_of_testBit (testBit_setBit h)
    · exact ih hmem (by rwa [length_setBit])

/-- Adding keys keeps the length of the filter and the bits of every key. -/
theorem foldl_keys_spec {entries : List Entry} {bits : Nat} {bloom : Bytes} :
    (entries.foldl (fun bl kv => (keyBits bits kv.1).foldl setBit bl) bloom).length =
        bloom.length ∧
      ∀ bit, testBit bloom bit = true →
        testBit (entries.foldl (fun bl kv => (keyBits bits kv.1).foldl setBit bl) bloom) bit =
          true := by
  induction entries generalizing bloom with
  | nil => exact ⟨rfl, fun _ h => h⟩
  | cons kv entries ih =>
    rw [List.foldl_cons]
    obtain ⟨hlen, hkeep⟩ := @ih ((keyBits bits kv.1).foldl setBit bloom)
    refine ⟨by rw [hlen, length_foldl_setBit], ?_⟩
    intro bit hbit
    exact hkeep bit (testBit_foldl_of_testBit hbit)

/-- The length of a filter, from the number of its keys. -/
theorem length_buildBloom (entries : List Entry) :
    (buildBloom entries).length = (max (entries.length * bloomBitsPerKey) 8 + 7) / 8 := by
  rw [buildBloom, foldl_keys_spec.1, List.length_replicate]

/-- A filter is never empty, so the reader never takes the shortcut. -/
theorem buildBloom_ne_nil (entries : List Entry) : buildBloom entries ≠ [] := by
  intro h
  have hlen := length_buildBloom entries
  rw [h, List.length_nil] at hlen
  omega

/-- **No false negatives.** A filter answers yes for every key of the entries that it was
built from, in whatever order they came and however often. -/
theorem mayContain_buildBloom {entries : List Entry} {kv : Entry} (h : kv ∈ entries) :
    mayContain (buildBloom entries) kv.1 = true := by
  rw [mayContain, if_neg (buildBloom_ne_nil entries), List.all_eq_true]
  intro bit hbit
  rw [length_buildBloom] at hbit
  obtain ⟨pre, suf, rfl⟩ := List.append_of_mem h
  rw [buildBloom, List.foldl_append, List.foldl_cons]
  -- the bit is set with its key, and stays set
  apply foldl_keys_spec.2
  apply testBit_foldl_of_mem hbit
  rw [foldl_keys_spec.1, List.length_replicate]
  obtain ⟨i, -, rfl⟩ := List.mem_map.mp hbit
  apply Nat.div_lt_of_lt_mul
  rw [mul_comm 8]
  exact Nat.mod_lt _ (by omega)

end SSTable

end Zenith
