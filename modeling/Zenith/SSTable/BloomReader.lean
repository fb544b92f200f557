import Zenith.SSTable.Table

/-!
# Zenith — the filter read back

Writer and reader of the bloom filter agree on two numbers that neither hands to the other.
The modulus is the rounded number of bits on one side and eight times the length of the
stored filter on the other; and a bit is addressed by division and remainder on one side, by
shift and mask on the other.

`mayContainBits` is the reader with its own arithmetic, on 64-bit words. It is `mayContain`
as long as eight times the length of the filter fits a word, which is so for every filter
that a file can hold. On the writer's side the bits that are set are exactly those of the
keys (`testBit_buildBloom_iff`), so that both sides can be compared bit by bit and not only
on the keys that were stored.

The filter is found through the footer, whose offsets the writer computed from the sections
in front of it. Whatever the index holds, the filter that is read back is the one that was
written.

Main result: `bloom_no_false_negatives`.
-/

namespace Zenith

open Bytes

namespace SSTable

-- ---------------------------------------------------------------------------
-- The arithmetic of the reader
-- ---------------------------------------------------------------------------

/-- `bloom_filter_[bit >> 3] & (1u << (bit & 7))` is not 0. -/
def readBit (bloomFilter : Bytes) (bit : UInt64) : Bool :=
  decide ((bloomFilter.getD (bit >>> 3).toNat 0).toNat &&& 1 <<< (bit &&& 7).toNat ≠ 0)

/-- The bits of a key as `may_contain` computes them. -/
def readerBits (bloomFilter : Bytes) (key : Bytes) : List UInt64 :=
  (List.range bloomHashes).map fun i =>
    bloomHash key i % UInt64.ofNat (bloomFilter.length * 8)

/-- `may_contain`. -/
def mayContainBits (bloomFilter : Bytes) (key : Bytes) : Bool :=
  if bloomFilter = [] then true else (readerBits bloomFilter key).all (readBit bloomFilter)

/-- A mask as a number. -/
theorem toNat_bitMask (bit : Nat) : (bitMask bit).toNat = 1 <<< (bit % 8) := by
  have hall : ∀ i < 8, ((1 : UInt8) <<< UInt8.ofNat i).toNat = 1 <<< i := by decide
  exact hall (bit % 8) (Nat.mod_lt bit (by decide))

/-- Shift and mask address the same bit as division and remainder. -/
theorem readBit_eq (bloomFilter : Bytes) (bit : UInt64) :
    readBit bloomFilter bit = testBit bloomFilter bit.toNat := by
  have hbyte : (bit >>> 3).toNat = bit.toNat / 8 := by
    rw [UInt64.toNat_shiftRight]
    exact Nat.shiftRight_eq_div_pow bit.toNat 3
  have hmask : (bit &&& 7).toNat = bit.toNat % 8 := by
    rw [UInt64.toNat_and]
    exact Nat.and_two_pow_sub_one_eq_mod bit.toNat 3
  rw [readBit, testBit, hbyte, hmask, ← toNat_bitMask, ← UInt8.toNat_and, Bool.eq_iff_iff,
    decide_eq_true_eq, bne_iff_ne, ne_eq, ne_eq, ← UInt8.toNat_inj]
  rfl

/-- The modulus fits 64 bits, so the reader computes the bits of the model. -/
theorem map_toNat_readerBits {bloomFilter : Bytes} (hlen : bloomFilter.length * 8 < 2 ^ 64)
    (key : Bytes) :
    (readerBits bloomFilter key).map UInt64.toNat = keyBits (bloomFilter.length * 8) key := by
  rw [readerBits, keyBits, List.map_map]
  apply List.map_congr_left
  intro i _
  rw [Function.comp_apply, UInt64.toNat_mod, UInt64.toNat_ofNat', Nat.mod_eq_of_lt hlen]

/-- The reader answers as the model does. -/
theorem mayContainBits_eq {bloomFilter : Bytes} (hlen : bloomFilter.length * 8 < 2 ^ 64)
    (key : Bytes) : mayContainBits bloomFilter key = mayContain bloomFilter key := by
  rw [mayContainBits, mayContain, ← map_toNat_readerBits hlen, List.all_map]
  congr 2
  funext bit
  exact readBit_eq bloomFilter bit

-- ---------------------------------------------------------------------------
-- The bits of a filter
-- ---------------------------------------------------------------------------

/-- The modulus of the writer. -/
def bloomBits (entries : List Entry) : Nat := (max (entries.length * bloomBitsPerKey) 8 + 7) / 8 * 8

/-- Reader and writer use the same modulus. -/
theorem length_buildBloom_bits (entries : List Entry) :
    (buildBloom entries).length * 8 = bloomBits entries := by
  rw [length_buildBloom, bloomBits]

/-- Masks of different bits of a byte have no bit in common. -/
theorem bitMask_and (bit other : Nat) :
    bitMask bit &&& bitMask other ≠ 0 ↔ bit % 8 = other % 8 := by
  have hall : ∀ i < 8, ∀ j < 8,
      ((1 : UInt8) <<< UInt8.ofNat i &&& 1 <<< UInt8.ofNat j ≠ 0 ↔ i = j) := by decide
  exact hall _ (Nat.mod_lt bit (by decide)) _ (Nat.mod_lt other (by decide))

/-- Setting a bit sets that bit and no other. -/
theorem testBit_setBit_iff {bloom : Bytes} {bit other : Nat} (h : bit / 8 < bloom.length) :
    testBit (setBit bloom bit) other = true ↔ testBit bloom other = true ∨ other = bit := by
  -- a bit that is set afterwards was set before, or is the new one
  constructor
  · intro hset
    by_cases hother : other = bit
    · exact Or.inr hother
    · left
      rw [testBit, bne_iff_ne] at hset ⊢
      by_cases hbyte : bit / 8 = other / 8
      · -- another bit of the same byte
        have hmask : bitMask bit &&& bitMask other = 0 := by
          by_contra hne
          have := (bitMask_and bit other).mp hne
          omega
        rcases getD_setBit bloom bit (other / 8) with heq | heq
        · rwa [heq] at hset
        · rwa [heq, or_and_distrib, hmask, UInt8.or_zero] at hset
      · have heq : (setBit bloom bit).getD (other / 8) 0 = bloom.getD (other / 8) 0 := by
          rw [setBit, List.getD_eq_getElem?_getD, List.getD_eq_getElem?_getD,
            List.getElem?_modify]
          simp [hbyte]
        rwa [heq] at hset
  · rintro (hold | rfl)
    · exact testBit_setBit_of_testBit hold
    · exact testBit_setBit h

/-- The bits of a list, by induction on it. -/
theorem testBit_foldl_setBit_iff {bits : List Nat} {bloom : Bytes} {other : Nat}
    (h : ∀ bit ∈ bits, bit / 8 < bloom.length) :
    testBit (bits.foldl setBit bloom) other = true ↔
      testBit bloom other = true ∨ other ∈ bits := by
  induction bits generalizing bloom with
  | nil => simp
  | cons bit bits ih =>
    obtain ⟨hbit, hbits⟩ := List.forall_mem_cons.mp h
    have hrest : ∀ b ∈ bits, b / 8 < (setBit bloom bit).length := by
      intro b hb
      rw [length_setBit]
      exact hbits b hb
    rw [List.foldl_cons, ih hrest, testBit_setBit_iff hbit, List.mem_cons, or_assoc]

/-- The bits of a key lie in the filter. -/
theorem keyBits_div_lt {bytes : Nat} (hpos : 0 < bytes) (key : Bytes) :
    ∀ bit ∈ keyBits (bytes * 8) key, bit / 8 < bytes := by
  intro bit hbit
  obtain ⟨i, -, rfl⟩ := List.mem_map.mp hbit
  apply Nat.div_lt_of_lt_mul
  rw [mul_comm 8]
  exact Nat.mod_lt _ (by omega)

/-- The writer's loop over all keys. -/
theorem testBit_foldl_keys_iff {entries : List Entry} {bloom : Bytes} {other : Nat}
    (hpos : 0 < bloom.length) :
    testBit (entries.foldl
        (fun bl kv => (keyBits (bloom.length * 8) kv.1).foldl setBit bl) bloom) other = true ↔
      testBit bloom other = true ∨ ∃ kv ∈ entries, other ∈ keyBits (bloom.length * 8) kv.1 := by
  generalize hbytes : bloom.length = bytes at hpos
  induction entries generalizing bloom with
  | nil => simp
  | cons kv entries ih =>
    have hbits := keyBits_div_lt hpos kv.1
    rw [List.foldl_cons, ih (by rw [length_foldl_setBit, hbytes]),
      testBit_foldl_setBit_iff (by rw [hbytes]; exact hbits), List.exists_mem_cons_iff, or_assoc]

/-- **The bits of a filter** are the bits of its keys. -/
theorem testBit_buildBloom_iff (entries : List Entry) (bit : Nat) :
    testBit (buildBloom entries) bit = true ↔
      ∃ kv ∈ entries, bit ∈ keyBits (bloomBits entries) kv.1 := by
  have hzero : ∀ n, testBit (List.replicate n 0) bit = false := by
    intro n
    have hget : (List.replicate n (0 : UInt8)).getD (bit / 8) 0 = 0 := by
      rw [List.getD_eq_getElem?_getD, List.getElem?_replicate]
      split <;> rfl
    rw [testBit, hget, UInt8.zero_and]
    rfl
  have hbytes : 0 < (max (entries.length * bloomBitsPerKey) 8 + 7) / 8 := by omega
  generalize hn : (max (entries.length * bloomBitsPerKey) 8 + 7) / 8 = n at hbytes
  have hlen : (List.replicate n (0 : UInt8)).length = n := List.length_replicate
  have hiff := @testBit_foldl_keys_iff entries (List.replicate n 0) bit (by rwa [hlen])
  rw [hlen, hzero] at hiff
  simpa [buildBloom, bloomBits, hn] using hiff

-- ---------------------------------------------------------------------------
-- The filter of a created file
-- ---------------------------------------------------------------------------

/-- Whatever the index holds, the filter is the one that was written. -/
theorem bloomFilter_of_openFile {es : List Entry} {file : Bytes} (hcreate : create es = .ok file)
    {t : SSTable} (hopen : openFile file = .ok t) : t.bloomFilter = buildBloom es := by
  rw [openFile_created hcreate] at hopen
  cases hread : readIndex (encodeIndex ((dataLayout es).map (·.1)))
      ((blocksOf es).length % 2 ^ 32) 4 with
  | error f =>
    rw [hread] at hopen
    exact absurd hopen (by simp [Except.map])
  | ok index =>
    rw [hread] at hopen
    obtain rfl := Except.ok.inj hopen
    unfold withIndex
    split <;> rfl

/-- The constructor accepts a created file when the keys fit their length fields. -/
theorem exists_openFile {es : List Entry} {file : Bytes} (hcreate : create es = .ok file)
    (hkeys : ∀ e ∈ es, e.1.length < 2 ^ 32) : ∃ t, openFile file = .ok t := by
  rw [openFile_created hcreate, readIndex_created hcreate hkeys]
  exact ⟨_, rfl⟩

/-- **No false negatives.** On the table reopened from a created file (`hcreate`), whatever
the entries, `may_contain` answers yes for every key. Reader and writer use the same bits,
and a bit is set exactly when it is a bit of some key. Keys need not be ascending, and there
may be none at all. That their lengths fit 32 bits is needed for the constructor to accept
the file, and only for that. -/
theorem bloom_no_false_negatives {es : List Entry} {file : Bytes} (hcreate : create es = .ok file) :
    ((∀ e ∈ es, e.1.length < 2 ^ 32) → ∃ t, openFile file = .ok t) ∧
      ∀ t, openFile file = .ok t →
        (∀ kv ∈ es, mayContain t.bloomFilter kv.1 = true ∧
          mayContainBits t.bloomFilter kv.1 = true) ∧
        (∀ key, (readerBits t.bloomFilter key).map UInt64.toNat = keyBits (bloomBits es) key) ∧
        ∀ bit : UInt64, readBit t.bloomFilter bit = true ↔
          ∃ kv ∈ es, bit ∈ readerBits t.bloomFilter kv.1 := by
  refine ⟨exists_openFile hcreate, fun t hopen => ?_⟩
  have hlen := buildBloom_bits_lt hcreate
  have hbits := fun key => map_toNat_readerBits hlen key
  rw [bloomFilter_of_openFile hcreate hopen]
  refine ⟨fun kv hkv => ⟨mayContain_buildBloom hkv, ?_⟩, fun key => ?_, fun bit => ?_⟩
  · rw [mayContainBits_eq hlen]
    exact mayContain_buildBloom hkv
  · rw [hbits, length_buildBloom_bits]
  · rw [readBit_eq, testBit_buildBloom_iff, ← length_buildBloom_bits]
    simp only [← hbits, List.mem_map, UInt64.toNat_inj, exists_eq_right]

/-- Several keys, with a tombstone, a prefix of another key and an empty key among them. -/
def bloomSample : List Entry :=
  [([], [1]), ([97], [2, 3]), ([97, 98], []), ([98, 255], [4]), ([107, 101, 121], [5])]

/-- Several entries, one, and none. -/
theorem bloom_no_false_negatives_sample :
    (∃ file t, create bloomSample = .ok file ∧ openFile file = .ok t ∧
        ∀ kv ∈ bloomSample, mayContain t.bloomFilter kv.1 = true ∧
          mayContainBits t.bloomFilter kv.1 = true) ∧
      (∃ file t, create [([107], [118])] = .ok file ∧ openFile file = .ok t ∧
        mayContainBits t.bloomFilter [107] = true) ∧
      ∃ file t, create [] = .ok file ∧ openFile file = .ok t ∧
        ∀ bit : UInt64, readBit t.bloomFilter bit = false := by
  obtain ⟨several, hseveral⟩ := Except.exists_eq_ok (x := create bloomSample) (by decide +kernel)
  obtain ⟨one, hone⟩ := Except.exists_eq_ok (x := create [([107], [118])]) (by decide +kernel)
  obtain ⟨empty, hempty⟩ := Except.exists_eq_ok (x := create []) (by decide +kernel)
  obtain ⟨hopens, hset⟩ := bloom_no_false_negatives hseveral
  obtain ⟨hopens₁, hset₁⟩ := bloom_no_false_negatives hone
  obtain ⟨hopens₀, hset₀⟩ := bloom_no_false_negatives hempty
  obtain ⟨t, ht⟩ := hopens (by decide)
  obtain ⟨t₁, ht₁⟩ := hopens₁ (by simp)
  obtain ⟨t₀, ht₀⟩ := hopens₀ (by simp)
  refine ⟨⟨several, t, hseveral, ht, (hset t ht).1⟩,
    ⟨one, t₁, hone, ht₁, ((hset₁ t₁ ht₁).1 _ (List.mem_singleton_self _)).2⟩,
    empty, t₀, hempty, ht₀, fun bit => ?_⟩
  rw [Bool.eq_false_iff, ne_eq, (hset₀ t₀ ht₀).2.2 bit]
  simp

end SSTable

end Zenith
