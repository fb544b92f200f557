import Zenith.Lib.BinarySearch
import Zenith.Lib.SortedMap
import Zenith.SSTable.Machine

/-!
# Zenith — the block format of sorted tables

A data block is a header `[num_entries(u32)] [block_size(u32)]`, the entries `[klen(u32)]
key [vlen(u32)] value`, the offsets of every sixteenth entry (the restart array) and the
number of restarts. This module embeds both sides of `sstable.cpp`: the loop of
`SSTable::create` that fills one block, and the two readers `find_in_block` and
`scan_block`.

The writer pushes the restart of the next entry before it decides whether that entry still
fits. A block closed by that decision after a multiple of sixteen entries therefore ends
with a restart that points behind its last entry, at the restart array itself. This is the
block on which both readers go wrong, and `dangling` names it; everything below carries the
restart along instead of assuming it away.

The readers look at a block through views. A view is formed without touching its bytes, so
what a reader demands of a damaged block is only what it really reads: the two lengths of
each entry it walks over, its key, and the value where a string is made of it. `readHead` is
what both walks read of every entry, `copyOut` the string made of a value, and the search
over the restarts compares no more bytes of a key than the sought key has (`restartBefore`).
An access outside the block is a fault of its own (`outOfBounds`), and an allocation that
cannot be had is a throw; the machine of the last module decides about the second.

The lemmas about the writer follow the builder: `Holds` says that its buffers are those of a
list of entries, each operation keeps it, and `fillBlock_spec` is the induction over the
entries that are left.

Main results:

* `fillBlock_spec` — what one block holds: a prefix of the entries, their encodings, and
  their restart offsets, the dangling one included;
* `readEntry_ok_iff`, `findFrom_eq`, `scanFrom_eq` — an entry as its head and its value, and
  one step of each walk.
-/

namespace Zenith

open Bytes

abbrev Entry := Bytes × Bytes

namespace SSTable

def blockTargetBytes : Nat := 4096
def restartInterval : Nat := 16

/-! ## Writing a block -/

/-- `[klen(u32)] key [vlen(u32)] value`; the lengths are truncated to 32 bits, the bytes are
not. A key or value of `2 ^ 32` bytes is therefore written with a length that does not fit
it. -/
def encodeEntry (kv : Entry) : Bytes :=
  leBytes 4 kv.1.length ++ (kv.1 ++ (leBytes 4 kv.2.length ++ kv.2))

/-- The buffers of a block under construction. The restarts are offsets into `dataBuf`,
counted with the header's eight bytes. -/
structure BlockBuilder where
  dataBuf : Bytes
  restarts : List Nat
  numEntries : Nat

/-- A block without entries: eight bytes reserved for the header, and the
restart of the entry that will follow them. -/
def BlockBuilder.start : BlockBuilder := ⟨leBytes 8 0, [8], 0⟩

/-- Pushes the restart of the next entry, after every sixteenth one. -/
def BlockBuilder.pushRestart (b : BlockBuilder) : BlockBuilder :=
  if b.numEntries > 0 ∧ b.numEntries % restartInterval = 0 then
    { b with restarts := b.restarts ++ [b.dataBuf.length] }
  else b

/-- Does `kv` make a block that already has entries too large? The sum is of 64-bit sizes
and the 32-bit lengths, so it does not wrap around. A first entry is always taken, however
long it is. -/
def BlockBuilder.full (b : BlockBuilder) (kv : Entry) : Bool :=
  let klen := kv.1.length % 2 ^ 32
  let vlen := kv.2.length % 2 ^ 32
  decide (b.numEntries > 0) &&
    decide (b.dataBuf.length + 8 + klen + vlen + b.restarts.length * 4 > blockTargetBytes)

/-- Appends the entry. `num_entries` has 32 bits in the source, but a block is full long
before: an entry takes at least eight of its 4096 bytes. -/
def BlockBuilder.add (b : BlockBuilder) (kv : Entry) : BlockBuilder :=
  { b with dataBuf := b.dataBuf ++ encodeEntry kv, numEntries := b.numEntries + 1 }

/-- The inner loop of `create`: adds entries until the next one no longer fits.
Returns the block and the entries that are left. The restart of the entry that
no longer fits has been pushed already. -/
def fillBlock (b : BlockBuilder) : List Entry → BlockBuilder × List Entry
  | [] => (b, [])
  | kv :: rest =>
    if b.pushRestart.full kv then (b.pushRestart, kv :: rest)
    else fillBlock (b.pushRestart.add kv) rest

/-- Appends the restart array and its length and fills in the header. -/
def finishBlock (b : BlockBuilder) : Bytes :=
  let dataBuf := b.dataBuf ++ (b.restarts.flatMap (leBytes 4) ++ leBytes 4 b.restarts.length)
  leBytes 4 b.numEntries ++ (leBytes 4 dataBuf.length ++ dataBuf.drop 8)

/-! ## Reading a block -/

/-- Reads the entry at `ptr`: its key, its value and where the next one starts. This is the
entry as the writer means it; the readers below do not demand all of it at once. -/
def readEntry (block : Bytes) (ptr : Nat) : Except Fault (Bytes × Bytes × Nat) := do
  let klen ← readLE 4 block ptr
  let key ← slice block (ptr + 4) klen
  let vlen ← readLE 4 block (ptr + 4 + klen)
  let val ← slice block (ptr + 4 + klen + 4) vlen
  return (key, val, ptr + 4 + klen + 4 + vlen)

/-- What both readers look at in every entry they come to: the key, and where the value
lies. `entry_val` is a view; its bytes are read when it is made a string. -/
structure EntryHead where
  key : Bytes
  valueAt : Nat
  vlen : Nat

/-- Where the next entry starts. -/
def EntryHead.next (head : EntryHead) : Nat := head.valueAt + head.vlen

/-- Reads the two lengths of the entry at `ptr` and its key. Both walks compare the key of
each entry they come to. It lies in front of `vlen`, so it is inside the block when `vlen`
is. -/
def readHead (block : Bytes) (ptr : Nat) : Except Fault EntryHead := do
  let klen ← readLE 4 block ptr
  let vlen ← readLE 4 block (ptr + 4 + klen)
  let key ← slice block (ptr + 4) klen
  return ⟨key, ptr + 4 + klen + 4, vlen⟩

/-- A walk moves on with every entry, even over a damaged one, because eight bytes of
lengths lie between an entry and the next. Both walks end for this reason. -/
theorem lt_of_readHead {block : Bytes} {ptr : Nat} {head : EntryHead}
    (h : readHead block ptr = .ok head) : ptr < head.next := by
  simp only [readHead, Except.bind_eq_ok_iff] at h
  obtain ⟨klen, -, vlen, -, k, -, hr⟩ := h
  obtain rfl := Except.ok.inj hr
  show ptr < ptr + 4 + klen + 4 + vlen
  omega

/-- An entry is its head with a value that lies inside the block. -/
theorem readEntry_ok_iff {block key val : Bytes} {ptr next : Nat} :
    readEntry block ptr = .ok (key, val, next) ↔ ∃ head, readHead block ptr = .ok head ∧
      head.key = key ∧ slice block head.valueAt head.vlen = .ok val ∧ head.next = next := by
  simp only [readEntry, readHead, Except.bind_eq_ok_iff, Except.pure_eq_ok, Except.ok.injEq,
    Prod.mk.injEq]
  constructor
  · rintro ⟨klen, hklen, k, hk, vlen, hvlen, v, hv, rfl, rfl, rfl⟩
    exact ⟨_, ⟨klen, hklen, vlen, hvlen, k, hk, rfl⟩, rfl, hv, rfl⟩
  · rintro ⟨_, ⟨klen, hklen, vlen, hvlen, k, hk, rfl⟩, rfl, hv, rfl⟩
    exact ⟨klen, hklen, k, hk, vlen, hvlen, val, hv, rfl, rfl, rfl⟩

/-- The restart array of a block: where it starts and how many restarts it has. -/
def restartArray (block : Bytes) (blockSize : Nat) : Except Fault (Nat × Nat) := do
  let countAt ← subLen blockSize 4
  let numRestarts ← readLE 4 block countAt
  -- `num_restarts * 4` is computed in 32 bits. No block is long enough for `2 ^ 30` restarts,
  -- so a count whose product wraps around names an array that is not there
  if numRestarts * 4 ≥ 2 ^ 32 then throw .overflow
  let restartsPtr ← subLen countAt (numRestarts * 4)
  return (restartsPtr, numRestarts)

/-- The test of the restart search: does restart `mid` start below `key`? `mid_key` is a
view, and comparing it reads no more of its bytes than `key` has; a key that goes on behind
them is not below `key`. -/
def restartBefore (block : Bytes) (restartsPtr : Nat) (key : Bytes) (mid : Nat) :
    Except Fault Bool := do
  let restartOff ← readLE 4 block (restartsPtr + mid * 4)
  let klen ← readLE 4 block restartOff
  let midKey ← slice block (restartOff + 4) (min klen key.length)
  return decide (midKey < key)

/-- Where the linear walk starts: at the last restart whose key is below `key`,
or at the first one. -/
def seekRestart (block : Bytes) (restartsPtr numRestarts : Nat) (key : Bytes) :
    Except Fault Nat := do
  let left ← BinarySearch.bsearch (restartBefore block restartsPtr key) 0 numRestarts
  let startIdx := if left > 0 then left - 1 else 0
  readLE 4 block (restartsPtr + startIdx * 4)

section Walks

variable [m : Machine]

/-- Makes a string of `len` bytes of the block. -/
def copyOut (block : Bytes) (off len : Nat) : Except Fault Bytes := do
  m.alloc len
  slice block off len

/-- The linear walk of `find_in_block`. The value is copied on an equal key only. -/
def findFrom (block : Bytes) (limit : Nat) (key : Bytes) (ptr : Nat) :
    Except Fault (Option Bytes) :=
  if ptr < limit then
    match _h : readHead block ptr with
    | .error f => .error f
    | .ok head =>
      if head.key = key then (copyOut block head.valueAt head.vlen).map some
      else if head.key > key then .ok none
      else findFrom block limit key head.next
  else .ok none
termination_by limit - ptr
decreasing_by
  have := lt_of_readHead _h
  omega

/-- The linear walk of `scan_block`: the entries of `[start, stop]`. Key and value are
copied for a row of the range only. In which order the two copies are made is the compiler's
choice; the value is copied first here, since it is the copy that can leave the block, and a
reader that is safe in this order is safe in the other. -/
def scanFrom (block : Bytes) (limit : Nat) (start stop : Bytes) (ptr : Nat) :
    Except Fault (List Entry) :=
  if ptr < limit then
    match _h : readHead block ptr with
    | .error f => .error f
    | .ok head =>
      if head.key > stop then .ok []
      else if start ≤ head.key then do
        let v ← copyOut block head.valueAt head.vlen
        m.alloc head.key.length
        let out ← scanFrom block limit start stop head.next
        return (head.key, v) :: out
      else scanFrom block limit start stop head.next
  else .ok []
termination_by limit - ptr
decreasing_by
  all_goals
    have := lt_of_readHead _h
    omega

/-- One step of the first walk. -/
theorem findFrom_eq {block key : Bytes} {limit ptr : Nat} (hlt : ptr < limit) :
    findFrom block limit key ptr = readHead block ptr >>= fun head =>
      if head.key = key then (copyOut block head.valueAt head.vlen).map some
      else if head.key > key then .ok none
      else findFrom block limit key head.next := by
  rw [findFrom, if_pos hlt]
  split
  · next f hf => rw [hf, Except.error_bind]
  · next head hhead => rw [hhead, Except.ok_bind]

/-- One step of the second walk. -/
theorem scanFrom_eq {block start stop : Bytes} {limit ptr : Nat} (hlt : ptr < limit) :
    scanFrom block limit start stop ptr = readHead block ptr >>= fun head =>
      if head.key > stop then .ok []
      else if start ≤ head.key then do
        let v ← copyOut block head.valueAt head.vlen
        m.alloc head.key.length
        let out ← scanFrom block limit start stop head.next
        return (head.key, v) :: out
      else scanFrom block limit start stop head.next := by
  rw [scanFrom, if_pos hlt]
  split
  · next f hf => rw [hf, Except.error_bind]
  · next head hhead => rw [hhead, Except.ok_bind]

/-- `find_in_block` behind the block header. -/
def findBlock (block : Bytes) (blockSize : Nat) (key : Bytes) : Except Fault (Option Bytes) := do
  let (restartsPtr, numRestarts) ← restartArray block blockSize
  let ptr ← seekRestart block restartsPtr numRestarts key
  findFrom block restartsPtr key ptr

/-- `scan_block` behind the block header. -/
def scanBlockRows (block : Bytes) (blockSize : Nat) (start stop : Bytes) :
    Except Fault (List Entry) := do
  let (restartsPtr, numRestarts) ← restartArray block blockSize
  let ptr ← seekRestart block restartsPtr numRestarts start
  scanFrom block restartsPtr start stop ptr

end Walks

/-! ## What a block holds -/

/-- Where entry `j` of a block starts, counted from the start of the block. -/
def entryOffset (es : List Entry) (j : Nat) : Nat := 8 + ((es.take j).flatMap encodeEntry).length

/-- The restarts of every sixteenth entry; an empty block has one as well, which
`BlockBuilder.start` has pushed. -/
def restartsOf (es : List Entry) : List Nat :=
  (List.range (max 1 ((es.length + 15) / 16))).map fun j => entryOffset es (16 * j)

/-- A block `closed` by the size rule after a multiple of sixteen entries. -/
def dangling (es : List Entry) (closed : Bool) : Bool := closed && es.length % 16 == 0

/-- All restarts of a block. The dangling one is the offset behind the last entry. -/
def blockRestarts (es : List Entry) (closed : Bool) : List Nat :=
  restartsOf es ++ if dangling es closed then [entryOffset es es.length] else []

/-- The builder's buffers are those of the entries `es`. -/
structure BlockBuilder.Holds (b : BlockBuilder) (es : List Entry) (closed : Bool) : Prop where
  dataBuf : b.dataBuf = leBytes 8 0 ++ es.flatMap encodeEntry
  restarts : b.restarts = blockRestarts es closed
  numEntries : b.numEntries = es.length

theorem BlockBuilder.start_holds : BlockBuilder.start.Holds [] false :=
  ⟨(List.append_nil _).symm, rfl, rfl⟩

theorem entryOffset_length (es : List Entry) :
    entryOffset es es.length = 8 + (es.flatMap encodeEntry).length := by
  rw [entryOffset, List.take_length]

theorem entryOffset_append {es : List Entry} {j : Nat} (h : j ≤ es.length) (es' : List Entry) :
    entryOffset (es ++ es') j = entryOffset es j := by
  rw [entryOffset, entryOffset, List.take_append_of_le_length h]

/-- Adding an entry adds its restart exactly after a positive multiple of
sixteen entries. -/
theorem restartsOf_append (es : List Entry) (e : Entry) :
    restartsOf (es ++ [e]) =
      if es.length > 0 ∧ es.length % 16 = 0 then restartsOf es ++ [entryOffset es es.length]
      else restartsOf es := by
  have hkeep : ∀ n, (∀ j < n, 16 * j ≤ es.length) →
      (List.range n).map (fun j => entryOffset (es ++ [e]) (16 * j)) =
        (List.range n).map fun j => entryOffset es (16 * j) := by
    intro n hn
    apply List.map_congr_left
    intro j hj
    exact entryOffset_append (hn j (List.mem_range.mp hj)) [e]
  have hlen : (es ++ [e]).length = es.length + 1 := by simp
  unfold restartsOf
  rw [hlen]
  by_cases h : es.length > 0 ∧ es.length % 16 = 0
  · -- a new restart, for the entry just added
    have hcount : max 1 ((es.length + 1 + 15) / 16) = max 1 ((es.length + 15) / 16) + 1 := by omega
    have hlast : 16 * max 1 ((es.length + 15) / 16) = es.length := by omega
    rw [if_pos h, hcount, hkeep _ (by omega), List.range_succ, List.map_append, List.map_singleton,
      hlast]
  · have hcount : max 1 ((es.length + 1 + 15) / 16) = max 1 ((es.length + 15) / 16) := by omega
    rw [if_neg h, hcount, hkeep _ (by omega)]

theorem dangling_true (es : List Entry) : dangling es true = decide (es.length % 16 = 0) := by
  rw [dangling, Bool.true_and]
  rfl

section Fill

variable {b : BlockBuilder} {done : List Entry}

theorem BlockBuilder.Holds.pushRestart (hb : b.Holds done false) :
    b.pushRestart.dataBuf = b.dataBuf ∧ b.pushRestart.numEntries = b.numEntries ∧
      b.pushRestart.restarts =
        if done.length > 0 ∧ done.length % 16 = 0 then
          restartsOf done ++ [entryOffset done done.length]
        else restartsOf done := by
  obtain ⟨hdata, hrestarts, hnum⟩ := hb
  have hopen : blockRestarts done false = restartsOf done := by simp [blockRestarts, dangling]
  have hoff : b.dataBuf.length = entryOffset done done.length := by
    rw [hdata, entryOffset_length, List.length_append, length_leBytes]
  unfold BlockBuilder.pushRestart
  rw [hnum, restartInterval, hoff, hrestarts, hopen]
  split
  · exact ⟨rfl, rfl, rfl⟩
  · exact ⟨rfl, hnum, hrestarts.trans hopen⟩

/-- Closing the block in front of an entry keeps the restart pushed for it. -/
theorem BlockBuilder.Holds.close (hb : b.Holds done false) (hpos : done.length > 0) :
    b.pushRestart.Holds done true := by
  obtain ⟨hdata, hnum, hrestarts⟩ := hb.pushRestart
  refine ⟨hdata.trans hb.dataBuf, ?_, hnum.trans hb.numEntries⟩
  rw [hrestarts, blockRestarts, dangling_true]
  by_cases h : done.length % 16 = 0 <;> simp [hpos, h]

theorem BlockBuilder.Holds.add (hb : b.Holds done false) (kv : Entry) :
    (b.pushRestart.add kv).Holds (done ++ [kv]) false := by
  obtain ⟨hdata, hnum, hrestarts⟩ := hb.pushRestart
  refine ⟨?_, ?_, ?_⟩
  · show b.pushRestart.dataBuf ++ encodeEntry kv = _
    rw [hdata, hb.dataBuf, List.flatMap_append, List.append_assoc]
    simp
  · show b.pushRestart.restarts = _
    rw [hrestarts, blockRestarts, restartsOf_append]
    simp [dangling]
  · show b.pushRestart.numEntries + 1 = _
    rw [hnum, hb.numEntries]
    simp

/-- **What one block holds.** Filling a block takes a prefix of the entries, at
least one of them; the block is closed by the size rule exactly when entries
are left. -/
theorem fillBlock_spec (hb : b.Holds done false) (es : List Entry) :
    ∃ taken, es = taken ++ (fillBlock b es).2 ∧
      (fillBlock b es).1.Holds (done ++ taken) (decide ((fillBlock b es).2 ≠ [])) ∧
      (done = [] → es ≠ [] → taken ≠ []) := by
  induction es generalizing b done with
  | nil =>
    refine ⟨[], rfl, ?_, fun _ h => absurd rfl h⟩
    rw [List.append_nil]
    exact hb
  | cons kv rest ih =>
    rw [fillBlock]
    -- a block that is full is closed behind the restart of an entry that it does not get
    by_cases hfull : b.pushRestart.full kv = true
    · have hpos : done.length > 0 := by
        obtain ⟨-, hnum, -⟩ := hb.pushRestart
        rw [← hb.numEntries, ← hnum]
        exact of_decide_eq_true (Bool.and_eq_true_iff.mp hfull).1
      rw [if_pos hfull]
      refine ⟨[], rfl, ?_, ?_⟩
      · rw [List.append_nil]
        exact hb.close hpos
      · intro hnil
        rw [hnil] at hpos
        exact absurd hpos (by simp)
    · obtain ⟨taken, hsplit, hholds, -⟩ := ih (hb.add kv)
      rw [if_neg hfull]
      refine ⟨kv :: taken, ?_, ?_, fun _ _ => List.cons_ne_nil kv taken⟩
      · rw [List.cons_append, ← hsplit]
      · rw [List.append_assoc] at hholds
        exact hholds

end Fill

/-- The bytes of a block: header, entries, restart array, restart count. -/
def encodeBlock (es : List Entry) (closed : Bool) : Bytes :=
  let restarts := blockRestarts es closed
  let size := 8 + (es.flatMap encodeEntry).length + 4 * restarts.length + 4
  leBytes 4 es.length ++ (leBytes 4 size ++
    (es.flatMap encodeEntry ++ (restarts.flatMap (leBytes 4) ++ leBytes 4 restarts.length)))

theorem length_flatMap_leBytes (w : Nat) (ns : List Nat) :
    (ns.flatMap (leBytes w)).length = w * ns.length := by
  induction ns with
  | nil => simp
  | cons n ns ih =>
    rw [List.flatMap_cons, List.length_append, length_leBytes, ih, List.length_cons]
    ring

theorem length_encodeBlock (es : List Entry) (closed : Bool) :
    (encodeBlock es closed).length =
      8 + (es.flatMap encodeEntry).length + 4 * (blockRestarts es closed).length + 4 := by
  simp only [encodeBlock, List.length_append, length_leBytes, length_flatMap_leBytes]
  omega

theorem finishBlock_eq {b : BlockBuilder} {es : List Entry} {closed : Bool}
    (h : b.Holds es closed) : finishBlock b = encodeBlock es closed := by
  obtain ⟨hdata, hrestarts, hnum⟩ := h
  have hdrop : ∀ z : Bytes, (leBytes 8 0 ++ z).drop 8 = z := by
    intro z
    exact List.drop_left' (length_leBytes 8 0)
  unfold finishBlock encodeBlock
  simp only [hdata, hrestarts, hnum, List.append_assoc, hdrop, List.length_append, length_leBytes,
    length_flatMap_leBytes]
  congr 2
  congr 1
  omega

end SSTable

end Zenith
