import Zenith.Lib.Bytes

/-!
# Zenith — the machine under the table reader

`SSTable::read_bytes` takes a buffer from the heap when it is asked for more than 4096
bytes, and passes the request on to `Env::Read`. Both may fail with an exception, and the
read may return less than was asked for. What these calls do is a parameter of the reader,
because it decides what becomes of a length that comes from a damaged file: a length that no
allocation can serve ends in `std::bad_alloc`, one that can be served ends in a read.

A `Machine` says what can be had. An allocation that can be had may still fail on some day;
it then throws, and an exception is always an allowed end. The results about files that
`SSTable::create` has written are about the machine `ample`, on which nothing fails and a
read returns everything that is there.

The laws of the class are what both environments of the source have in common. A read fails
only where its offset is no `off_t` any more; it never returns more than was asked for; and
it is not cut short below a page, which matters because the reader takes twelve or sixteen
bytes for granted when it reads a footer. Nothing is said about which lengths an allocator
grants: a machine may refuse all of them. Only where bits are counted in 64 bits is a bound
needed, and `Bounded` names it.

Main results:

* `read_ample`, `alloc_ample`: reads and allocations of the ample machine;
* `read_eq`, `read_throws`: the two ends of a read on any machine.
-/

namespace Zenith

open Bytes

/-- What the allocator and `Env::Read` can do, as far as the reader can tell. -/
class Machine where
  /-- Can memory for this many bytes be had? For a read this covers the buffer and the
  string that is made of it, which is no longer. -/
  grants : Nat → Bool
  /-- Can the index be given room for this many entries? An entry of the vector is larger
  than the bytes it is read from, so this is asked apart from `grants`. -/
  reserves : Nat → Bool
  /-- Does a read at this offset fail? `pread` takes a signed offset, so it fails from
  `2 ^ 63` on; the file in memory of `mock_env.h` never does. -/
  refuses : Nat → Bool
  /-- How many bytes one read returns at most when this many are asked for. -/
  atMost : Nat → Nat
  refuses_above : ∀ offset, refuses offset = true → 2 ^ 63 ≤ offset
  atMost_le : ∀ n, atMost n ≤ n
  /-- Reads of up to a page are not cut. -/
  atMost_page : ∀ n, n ≤ 4096 → atMost n = n

namespace SSTable

/-- The bytes of the file at `offset`, at most `n` of them: what `Env::Read` puts into
the buffer. -/
def readBytes (file : Bytes) (offset n : Nat) : Bytes := (file.drop offset).take n

end SSTable

namespace Machine

/-- The machine on which nothing fails. It is the one that is meant where none is named, so
that the results about written tables do not mention it. -/
instance ample : Machine where
  grants _ := true
  reserves _ := true
  refuses _ := false
  atMost n := n
  refuses_above _ h := absurd h Bool.false_ne_true
  atMost_le _ := le_rfl
  atMost_page _ _ := rfl

section

variable [m : Machine]

/-- Takes `n` bytes of memory, for a string or an array. The memory itself is not modelled,
only whether it was had. -/
def alloc (n : Nat) : Except Fault Unit :=
  if m.grants n = true then .ok () else .error (.thrown "std::bad_alloc")

/-- `read_bytes`: a buffer on the stack for up to 4096 bytes, else one from the heap. The
buffer is taken before the read, so a length that cannot be had throws whatever the offset. -/
def read (file : Bytes) (offset n : Nat) : Except Fault Bytes :=
  if n > 4096 ∧ m.grants n = false then .error (.thrown "std::bad_alloc")
  else if m.refuses offset = true then .error (.thrown "pread failed")
  else .ok (SSTable.readBytes file offset (m.atMost n))

/-- A read of `n` bytes at `offset` does not throw. -/
def Reads (m : Machine) (offset n : Nat) : Prop :=
  (n ≤ 4096 ∨ m.grants n = true) ∧ m.refuses offset = false

/-- No machine that can be built has this much memory, so the bits of an array that was
granted can be counted in 64 bits. -/
def Bounded (m : Machine) : Prop := ∀ n, m.grants n = true → n < 2 ^ 61

instance (offset n : Nat) : Decidable (m.Reads offset n) := by
  unfold Reads
  infer_instance

/-- What a read returns that does not throw. -/
theorem read_eq (file : Bytes) {offset n : Nat} (h : m.Reads offset n) :
    m.read file offset n = .ok (SSTable.readBytes file offset (m.atMost n)) := by
  obtain ⟨hmemory, hoffset⟩ := h
  unfold read
  rw [if_neg, if_neg (by simp [hoffset])]
  rintro ⟨hlarge, hrefused⟩
  exact hmemory.elim hlarge.not_ge fun hgranted => by simp [hgranted] at hrefused

/-- Any other read throws: it has no third end. -/
theorem read_throws (file : Bytes) {offset n : Nat} (h : ¬ m.Reads offset n) :
    ∃ what, m.read file offset n = .error (.thrown what) := by
  unfold read
  by_cases hmemory : n > 4096 ∧ m.grants n = false
  · exact ⟨_, if_pos hmemory⟩
  · rw [if_neg hmemory]
    refine ⟨"pread failed", if_pos ?_⟩
    by_contra hoffset
    refine h ⟨?_, by simpa using hoffset⟩
    by_contra hnone
    obtain ⟨hlarge, hrefused⟩ := not_or.mp hnone
    exact hmemory ⟨not_le.mp hlarge, by simpa using hrefused⟩

/-- Reads of up to a page need no memory and come back whole. -/
theorem read_page (file : Bytes) {offset n : Nat} (hoffset : m.refuses offset = false)
    (hn : n ≤ 4096) : m.read file offset n = .ok (SSTable.readBytes file offset n) := by
  rw [m.read_eq file ⟨.inl hn, hoffset⟩, m.atMost_page n hn]

end

@[simp] theorem alloc_ample (n : Nat) : ample.alloc n = .ok () := rfl

@[simp] theorem read_ample (file : Bytes) (offset n : Nat) :
    ample.read file offset n = .ok (SSTable.readBytes file offset n) :=
  read_eq file ⟨.inr rfl, rfl⟩

end Machine

end Zenith
