import Zenith.Crdt.Codec

/-!
# Zenith — decoding registers from untrusted bytes

Every payload from the network and every stored value goes through
`LWWRegister::deserialize`. It guards its reads with `in.size() < 4 + vc_len`, a sum of 32
bits: a length within four of `2 ^ 32` wraps it to a number below four, which every input
passes, and the clock's bytes are then taken from behind the end of the input.

`deserializeChecked` is the decoder with that sum checked. It reads what `deserialize` reads
and in addition stops where the sum wraps. The two together say in which part of the
function the fault lies: where the sum does not wrap, the guard is right and every read
behind it is inside the input.

The clock decoder has no such sum. It compares 64-bit offsets with the size of its view
before each read, and ends where an entry is cut off.

Main results: `VectorClock.exists_deserialize`, that the clock decoder is safe on every
input, and `decoding_bounded_iff`, that the register decoder is safe exactly where its first
word does not wrap the sum.
-/

namespace Zenith

open Bytes

-- ---------------------------------------------------------------------------
-- Clocks
-- ---------------------------------------------------------------------------

namespace VectorClock

/-- The loop stays inside the buffer: it stops in front of an entry that is cut
off. -/
theorem exists_readEntries (buf : Bytes) (i ptr : Nat) (m : SortedMap NodeID Counter) :
    ∃ m', readEntries buf i ptr m = .ok m' := by
  induction i generalizing ptr m with
  | zero => exact ⟨m, rfl⟩
  | succ i ih =>
    rw [readEntries]
    split
    · exact ⟨m, rfl⟩
    · next hlen =>
      obtain ⟨nlen, hnlen⟩ := exists_readLE 4 buf ptr (not_lt.mp hlen)
      rw [hnlen, Except.ok_bind]
      split
      · exact ⟨m, rfl⟩
      · next hentry =>
        -- the second check covers the node id and the counter behind it
        obtain ⟨node, hnode, -⟩ := exists_slice buf (ptr + 4) nlen (by omega)
        obtain ⟨count, hcount⟩ := exists_readLE 8 buf (ptr + 4 + nlen) (by omega)
        rw [hnode, Except.ok_bind, hcount, Except.ok_bind]
        exact ih _ _

/-- **The clock decoder is safe** on every input. -/
theorem exists_deserialize (buf : Bytes) : ∃ c, deserialize buf = .ok c := by
  rw [deserialize]
  split
  · exact ⟨.empty, rfl⟩
  · next hlen =>
    obtain ⟨size, hsize⟩ := exists_readLE 4 buf 0 (by omega)
    obtain ⟨m, hm⟩ := exists_readEntries buf size 4 SortedMap.empty
    rw [hsize, Except.ok_bind, hm, Except.ok_bind]
    exact ⟨⟨m⟩, rfl⟩

end VectorClock

-- ---------------------------------------------------------------------------
-- Registers
-- ---------------------------------------------------------------------------

namespace LWWRegister

/-- `deserialize` with its 32-bit sum checked. -/
def deserializeChecked (buf : Bytes) : Except Fault LWWRegister :=
  if buf.length < 4 then .ok ⟨buf, .empty⟩
  else do
    let vcLen ← readLE 4 buf 0
    let header ← addU32 4 vcLen
    if buf.length < header then .ok ⟨buf, .empty⟩
    else do
      let view ← slice buf 4 vcLen
      let vc ← VectorClock.deserialize view
      let valLen ← subLen buf.length (4 + vcLen)
      let val ← slice buf (4 + vcLen) valLen
      return ⟨val, vc⟩

/-- Without a wrap the check changes nothing. -/
theorem deserializeChecked_eq {buf : Bytes} {vcLen : Nat} (hread : readLE 4 buf 0 = .ok vcLen)
    (hsum : 4 + vcLen < 2 ^ 32) : deserializeChecked buf = deserialize buf := by
  rw [deserializeChecked, deserialize, hread]
  simp only [Except.ok_bind, addU32_eq hsum, Nat.mod_eq_of_lt hsum]

/-- Where the sum does not wrap, the guard covers the clock and the value: the view ends
where the value starts, and the value is what is left. -/
theorem exists_deserialize_of_sum {buf : Bytes} {vcLen : Nat} (hread : readLE 4 buf 0 = .ok vcLen)
    (hsum : 4 + vcLen < 2 ^ 32) : ∃ r, deserialize buf = .ok r := by
  rw [deserialize]
  split
  · exact ⟨⟨buf, .empty⟩, rfl⟩
  · rw [hread, Except.ok_bind, Nat.mod_eq_of_lt hsum]
    split
    · exact ⟨⟨buf, .empty⟩, rfl⟩
    · next hlen =>
      rw [not_lt] at hlen
      obtain ⟨view, hview, -⟩ := exists_slice buf 4 vcLen (by omega)
      obtain ⟨vc, hvc⟩ := VectorClock.exists_deserialize view
      obtain ⟨val, hval, -⟩ := exists_slice buf (4 + vcLen) (buf.length - (4 + vcLen))
        (by omega)
      refine ⟨⟨val, vc⟩, ?_⟩
      rw [hview, Except.ok_bind, hvc, Except.ok_bind, subLen_eq hlen, Except.ok_bind, hval]
      rfl

/-- **Decoding is memory-bounded** exactly where the first word of the input does not wrap
the guard: then both decoders agree on a register. The clock decoder is memory-bounded on
every input. There is no assumption on the length of the input, so the condition is about
its first four bytes and nothing else. -/
theorem decoding_bounded_iff (buf : Bytes) :
    ((∃ r, deserialize buf = .ok r ∧ deserializeChecked buf = .ok r) ∧
        ∃ c, VectorClock.deserialize buf = .ok c) ↔
      buf.length < 4 ∨ leNat (buf.take 4) < 2 ^ 32 - 4 := by
  constructor
  · rintro ⟨⟨r, -, hchecked⟩, -⟩
    by_cases hlen : buf.length < 4
    · exact .inl hlen
    · rw [deserializeChecked, if_neg hlen, readLE_zero (not_lt.mp hlen), Except.ok_bind]
        at hchecked
      obtain ⟨header, hheader, -⟩ := Except.bind_eq_ok_iff.mp hchecked
      exact .inr (by have := addU32_lt hheader; omega)
  · intro h
    refine ⟨?_, VectorClock.exists_deserialize buf⟩
    by_cases hlen : buf.length < 4
    · exact ⟨⟨buf, .empty⟩, if_pos hlen, if_pos hlen⟩
    · have hread := readLE_zero (not_lt.mp hlen)
      have hsum : 4 + leNat (buf.take 4) < 2 ^ 32 := by omega
      obtain ⟨r, hr⟩ := exists_deserialize_of_sum hread hsum
      exact ⟨r, hr, by rw [deserializeChecked_eq hread hsum, hr]⟩

/-- A message of four bytes makes the decoder read behind its end. -/
theorem decoding_reads_behind_end :
    deserialize [252, 255, 255, 255] = .error .outOfBounds ∧
      deserializeChecked [252, 255, 255, 255] = .error .overflow := by
  decide +kernel

end LWWRegister

end Zenith
