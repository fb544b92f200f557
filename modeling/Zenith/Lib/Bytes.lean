import Zenith.Lib.Outcome

/-!
# Byte strings, little-endian numbers and checked reads

General support for verifying code that works on raw byte buffers:

* `Bytes` — byte strings, ordered lexicographically on unsigned bytes, which is how `memcmp`
  and the standard string comparison order them;
* `leBytes` / `leNat` — fixed-width little-endian encoding and decoding;
* `slice` / `readLE` — reads that check their bounds. A read outside the buffer is the fault
  `outOfBounds`, a length computation that leaves its integer type is the fault `overflow`,
  and an exception is `thrown`.

The first two faults stand for what a program in an unsafe language must not do. A model
returns them where the program would go on with something undefined, so that a proof that a
run returns is also a proof that it stayed inside its buffers. Where such a program computes
a length modulo a power of two and throws later because the length makes no sense, the
wrapped number is not yet wrong; `wrapping` allows that and nothing else.

The rules come in two directions. The first evaluates a read inside a buffer whose parts are
known, which is how a round trip is proved: the buffer is what an encoder wrote. The other
one says what a read that succeeded tells about a buffer that may be anything.

Main results: `leNat_leBytes` (decoding inverts encoding), and the two read rules `slice_eq`
and `readLE_eq`, which evaluate a read inside a buffer whose parts are known.
-/

instance Bytes.byteLinearOrder : LinearOrder UInt8 where
  le_refl := UInt8.le_refl
  le_trans _ _ _ := UInt8.le_trans
  le_antisymm _ _ := UInt8.le_antisymm
  le_total := UInt8.le_total
  lt_iff_le_not_ge a b := by
    rw [UInt8.not_le]
    exact ⟨fun h => ⟨UInt8.le_of_lt h, h⟩, fun h => h.2⟩
  toDecidableLE := inferInstance
  toDecidableEq := inferInstance
  toDecidableLT := inferInstance
  min_def _ _ := rfl
  max_def _ _ := rfl

instance Bytes.wordLinearOrder : LinearOrder UInt64 where
  le_refl := UInt64.le_refl
  le_trans _ _ _ := UInt64.le_trans
  le_antisymm _ _ := UInt64.le_antisymm
  le_total := UInt64.le_total
  lt_iff_le_not_ge a b := by
    rw [UInt64.not_le]
    exact ⟨fun h => ⟨UInt64.le_of_lt h, h⟩, fun h => h.2⟩
  toDecidableLE := inferInstance
  toDecidableEq := inferInstance
  toDecidableLT := inferInstance
  min_def _ _ := rfl
  max_def _ _ := rfl

abbrev Bytes := List UInt8

/-- What stops a program that reads a buffer it does not control. -/
inductive Fault
  /-- a read or a substring outside the buffer -/
  | outOfBounds
  /-- a length, offset or pointer computation that wraps or underflows -/
  | overflow
  /-- an exception -/
  | thrown (what : String)
  deriving DecidableEq, Repr

namespace Bytes

/-! ## Little-endian numbers -/

/-- The `w` low-order bytes of `n`, least significant first. -/
def leBytes : Nat → Nat → Bytes
  | 0, _ => []
  | w + 1, n => UInt8.ofNat n :: leBytes w (n / 256)

/-- The number a byte string spells, least significant byte first. -/
def leNat : Bytes → Nat
  | [] => 0
  | b :: bs => b.toNat + 256 * leNat bs

/-- The width is that asked for. -/
@[simp] theorem length_leBytes (w n : Nat) : (leBytes w n).length = w := by
  induction w generalizing n with
  | zero => rfl
  | succ w ih => simp [leBytes, ih]

/-- A number that does not fit loses its upper bytes. -/
theorem leNat_leBytes_mod (w n : Nat) : leNat (leBytes w n) = n % 256 ^ w := by
  induction w generalizing n with
  | zero => simp [leBytes, leNat, Nat.mod_one]
  | succ w ih =>
    have hpow : 256 ^ (w + 1) = 256 * 256 ^ w := by ring
    have hlow : (UInt8.ofNat n).toNat = n % 256 := by simp
    rw [leBytes, leNat, ih, hlow, hpow, Nat.mod_mul]

/-- Decoding inverts encoding for every number that fits the width. -/
theorem leNat_leBytes {w n : Nat} (h : n < 256 ^ w) : leNat (leBytes w n) = n := by
  rw [leNat_leBytes_mod, Nat.mod_eq_of_lt h]

/-- As many bytes spell no number beyond their width. -/
theorem leNat_lt (bs : Bytes) : leNat bs < 256 ^ bs.length := by
  induction bs with
  | nil => simp [leNat]
  | cons b bs ih =>
    have hb : b.toNat < 256 := UInt8.toNat_lt b
    rw [leNat, List.length_cons, pow_succ]
    omega

/-- Encodings of the same width are equal only for numbers equal modulo it. -/
theorem leBytes_mod (w n : Nat) : leBytes w (n % 256 ^ w) = leBytes w n := by
  induction w generalizing n with
  | zero => rfl
  | succ w ih =>
    have hlow : UInt8.ofNat (n % 256 ^ (w + 1)) = UInt8.ofNat n := by
      rw [← UInt8.toNat_inj, UInt8.toNat_ofNat', UInt8.toNat_ofNat', pow_succ]
      exact Nat.mod_mul_left_mod n (256 ^ w) 256
    have hdiv : n % 256 ^ (w + 1) / 256 = n / 256 % 256 ^ w := by
      rw [pow_succ, mul_comm, Nat.mod_mul_right_div_self]
    rw [leBytes, leBytes, hlow, hdiv, ih]

/-- Encoding inverts decoding. -/
theorem leBytes_leNat (bs : Bytes) : leBytes bs.length (leNat bs) = bs := by
  induction bs with
  | nil => rfl
  | cons b bs ih =>
    have hb : b.toNat < 256 := UInt8.toNat_lt b
    have hlow : UInt8.ofNat (b.toNat + 256 * leNat bs) = b := by
      rw [← UInt8.toNat_inj, UInt8.toNat_ofNat']
      omega
    have hhigh : (b.toNat + 256 * leNat bs) / 256 = leNat bs := by omega
    rw [leNat, List.length_cons, leBytes, hlow, hhigh, ih]

/-! ## Checked reads -/

/-- The `len` bytes at `off`; reading past the end is a fault. -/
def slice (buf : Bytes) (off len : Nat) : Except Fault Bytes :=
  if off + len ≤ buf.length then .ok ((buf.drop off).take len) else .error .outOfBounds

/-- The little-endian number in the `w` bytes at `off`. -/
def readLE (w : Nat) (buf : Bytes) (off : Nat) : Except Fault Nat :=
  (slice buf off w).map leNat

/-- A checked subtraction of lengths or of two pointers into one buffer. -/
def subLen (a b : Nat) : Except Fault Nat :=
  if b ≤ a then .ok (a - b) else .error .overflow

/-- A slice of a buffer whose parts are known. -/
theorem slice_eq {buf a m z : Bytes} {off len : Nat} (hbuf : buf = a ++ (m ++ z))
    (hoff : off = a.length) (hlen : len = m.length) : slice buf off len = .ok m := by
  subst hbuf hoff hlen
  rw [slice, if_pos (by simp), List.drop_left, List.take_left]

/-- A number that was written there is read back. -/
theorem readLE_eq {w n : Nat} {buf a z : Bytes} {off : Nat} (hbuf : buf = a ++ (leBytes w n ++ z))
    (hoff : off = a.length) (hn : n < 256 ^ w) : readLE w buf off = .ok n := by
  rw [readLE, slice_eq hbuf hoff (length_leBytes w n).symm]
  simp [Except.map, leNat_leBytes hn]

/-- What a slice that succeeded tells. -/
theorem slice_ok {buf b : Bytes} {off len : Nat} (h : slice buf off len = .ok b) :
    off + len ≤ buf.length ∧ b = (buf.drop off).take len := by
  unfold slice at h
  split at h
  · next hle => exact ⟨hle, (Except.ok.inj h).symm⟩
  · exact absurd h (by simp)

/-- A slice has the length asked for. -/
theorem slice_ok_length {buf b : Bytes} {off len : Nat} (h : slice buf off len = .ok b) :
    b.length = len := by
  obtain ⟨hle, rfl⟩ := slice_ok h
  simp
  omega

/-- A number that was read fits its width. -/
theorem readLE_lt {w n : Nat} {buf : Bytes} {off : Nat} (h : readLE w buf off = .ok n) :
    n < 256 ^ w := by
  unfold readLE at h
  cases hs : slice buf off w with
  | error f => simp [hs, Except.map] at h
  | ok b =>
    rw [hs] at h
    have hn : leNat b = n := Except.ok.inj h
    have := leNat_lt b
    rw [slice_ok_length hs] at this
    omega

/-- The number that the `w` bytes at `off` spell, as far as they are there. -/
def leAt (w : Nat) (buf : Bytes) (off : Nat) : Nat := leNat ((buf.drop off).take w)

/-- A read succeeds exactly inside the buffer. -/
theorem readLE_ok_iff {w n : Nat} {buf : Bytes} {off : Nat} :
    readLE w buf off = .ok n ↔ off + w ≤ buf.length ∧ leAt w buf off = n := by
  unfold readLE slice leAt
  split
  · next hle => simp [Except.map, hle]
  · next hgt => simp [Except.map, hgt]

/-- It fits its width. -/
theorem leAt_lt (w : Nat) (buf : Bytes) (off : Nat) : leAt w buf off < 256 ^ w := by
  refine (leNat_lt _).trans_le (Nat.pow_le_pow_right (by norm_num) ?_)
  rw [List.length_take]
  exact min_le_left _ _

/-- A slice inside the buffer is read. -/
theorem exists_slice (buf : Bytes) (off len : Nat) (h : off + len ≤ buf.length) :
    ∃ b, slice buf off len = .ok b ∧ b.length = len := by
  have hs : slice buf off len = .ok ((buf.drop off).take len) := if_pos h
  exact ⟨_, hs, slice_ok_length hs⟩

/-- A shorter slice at the same place. -/
theorem slice_min {buf b : Bytes} {off len : Nat} (h : slice buf off len = .ok b) (n : Nat) :
    slice buf off (min len n) = .ok (b.take n) := by
  obtain ⟨hle, rfl⟩ := slice_ok h
  rw [slice, if_pos (by omega), List.take_take, min_comm]

/-- Whether a string is below `b` shows in its first `b.length` bytes. -/
theorem take_lt_iff (a b : Bytes) : a.take b.length < b ↔ a < b := by
  induction a generalizing b with
  | nil => rw [List.take_nil]
  | cons x a ih =>
    cases b with
    | nil => simp
    | cons y b => simp only [List.length_cons, List.take_succ_cons, List.cons_lt_cons_iff, ih]

/-- A number inside the buffer is read. -/
theorem exists_readLE (w : Nat) (buf : Bytes) (off : Nat) (h : off + w ≤ buf.length) :
    ∃ n, readLE w buf off = .ok n := by
  obtain ⟨b, hb, -⟩ := exists_slice buf off w h
  exact ⟨leNat b, by rw [readLE, hb]; rfl⟩

/-- A number at the front of a buffer. -/
theorem readLE_zero {w : Nat} {buf : Bytes} (h : w ≤ buf.length) :
    readLE w buf 0 = .ok (leNat (buf.take w)) := by
  have hs : slice buf 0 w = .ok ((buf.drop 0).take w) := if_pos (by omega)
  rw [readLE, hs]
  rfl

/-- A difference that is not negative. -/
theorem subLen_eq {a b : Nat} (h : b ≤ a) : subLen a b = .ok (a - b) := if_pos h

/-- Runs on with a number that fits its type only if `fits` holds. When it has wrapped,
the run must end in an exception: one that returns has used a wrong length or offset. -/
def wrapping {α : Type} (fits : Prop) [Decidable fits] (run : Except Fault α) : Except Fault α :=
  if fits then run else run >>= fun _ => .error .overflow

theorem wrapping_eq {α : Type} {fits : Prop} [Decidable fits] (h : fits)
    (run : Except Fault α) : wrapping fits run = run := if_pos h

/-- What returns has not wrapped. -/
theorem wrapping_ok_iff {α : Type} {fits : Prop} [Decidable fits] {run : Except Fault α} {a : α} :
    wrapping fits run = .ok a ↔ fits ∧ run = .ok a := by
  unfold wrapping
  split
  · next hfits => exact (and_iff_right hfits).symm
  · next hwraps =>
    refine iff_of_false ?_ fun h => hwraps h.1
    cases run <;> simp

/-- A checked addition in 32 bits. -/
def addU32 (a b : Nat) : Except Fault Nat :=
  if a + b < 2 ^ 32 then .ok (a + b) else .error .overflow

theorem addU32_eq {a b : Nat} (h : a + b < 2 ^ 32) : addU32 a b = .ok (a + b) := if_pos h

/-- A sum that was computed fits. -/
theorem addU32_lt {a b n : Nat} (h : addU32 a b = .ok n) : a + b < 2 ^ 32 := by
  unfold addU32 at h
  split at h
  · assumption
  · exact absurd h (by simp)

end Bytes
