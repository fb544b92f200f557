import Zenith.SSTable.Block

/-!
# Zenith — searching a block

What `find_in_block` and `scan_block` return on a block that `create` wrote.

A block consists of entries and of an array of restarts, the offsets of every sixteenth
entry. A search halves the array by the keys at the restarts and then walks over entries
from the restart it ended at.

The restart search needs no order among the restarts: it ends at a restart whose key is
below the key searched for, or at the first one (`seekRestart_spec`). From a restart of an
entry the walk therefore sees every entry that matters. The dangling restart is the
exception: it is read as an entry although it points at the restart array, whose bytes
decode to an eight-byte key (`danglingKey`), and a walk that starts there sees nothing.
Since the first word of the array is the offset of the first entry, which is eight, the
length read there is always eight and the key is made of the next two words.

So two facts decide a search: where it ends, which is a matter of `danglingKey` alone, and
what the walk from there finds, which is a lookup in the remaining entries. The order of the
entries is needed for the second.

Main results:

* `findBlock_spec` — a search returns the stored value, or nothing when it ended at the
  dangling restart.
* `findBlock_dangling` — it does end there for the last key of the block when that key is
  above `danglingKey`.
* `scanBlock_spec` — the same for scans.
-/

namespace Zenith

open Bytes

namespace SSTable

/-! ## Walking over entries -/

/-- The lengths of every entry fit their 32-bit fields. -/
def Small (es : List Entry) : Prop := ∀ e ∈ es, e.1.length < 2 ^ 32 ∧ e.2.length < 2 ^ 32

/-- Two length fields, the key and the value. -/
theorem length_encodeEntry (e : Entry) :
    (encodeEntry e).length = 8 + e.1.length + e.2.length := by
  simp [encodeEntry]
  omega

/-- An entry is no longer than all entries together. -/
theorem length_le_of_mem {e : Entry} {es : List Entry} (h : e ∈ es) :
    (encodeEntry e).length ≤ (es.flatMap encodeEntry).length := by
  obtain ⟨pre, suf, rfl⟩ := List.append_of_mem h
  simp only [List.flatMap_append, List.flatMap_cons, List.length_append]
  omega

/-- An entry that was encoded at `ptr` is read there, and the next one starts behind it. -/
theorem readEntry_eq {block a z : Bytes} {e : Entry} {ptr : Nat}
    (hblock : block = a ++ (encodeEntry e ++ z)) (hptr : ptr = a.length)
    (hk : e.1.length < 2 ^ 32) (hv : e.2.length < 2 ^ 32) :
    readEntry block ptr = .ok (e.1, e.2, ptr + (encodeEntry e).length) := by
  have hrest : block = a ++ (leBytes 4 e.1.length ++ (e.1 ++ (leBytes 4 e.2.length ++ (e.2 ++ z)))) := by
    rw [hblock, encodeEntry]
    simp only [List.append_assoc]
  -- the four reads, each at the place that the one before it leaves
  have hklen : readLE 4 block ptr = .ok e.1.length := readLE_eq hrest hptr (by omega)
  have hkey : slice block (ptr + 4) e.1.length = .ok e.1 :=
    slice_eq (a := a ++ leBytes 4 e.1.length) (by rw [hrest, List.append_assoc])
      (by simp [hptr]) rfl
  have hvlen : readLE 4 block (ptr + 4 + e.1.length) = .ok e.2.length :=
    readLE_eq (a := a ++ (leBytes 4 e.1.length ++ e.1)) (z := e.2 ++ z)
      (by rw [hrest]; simp only [List.append_assoc]) (by simp [hptr]; omega) (by omega)
  have hval : slice block (ptr + 4 + e.1.length + 4) e.2.length = .ok e.2 :=
    slice_eq (a := a ++ (leBytes 4 e.1.length ++ (e.1 ++ leBytes 4 e.2.length))) (z := z)
      (by rw [hrest]; simp only [List.append_assoc]) (by simp [hptr]; omega) rfl
  have hnext : ptr + 4 + e.1.length + 4 + e.2.length = ptr + (encodeEntry e).length := by
    rw [length_encodeEntry]
    omega
  rw [readEntry, hklen, Except.ok_bind, hkey, Except.ok_bind, hvlen, Except.ok_bind, hval,
    Except.ok_bind, hnext]
  rfl

/-- Values are copied where memory lasts. -/
theorem copyOut_ample (block : Bytes) (off len : Nat) :
    copyOut block off len = slice block off len := rfl

/-- One round of the walk of a lookup. -/
theorem findFrom_read {block key k v : Bytes} {limit ptr next : Nat} (hlt : ptr < limit)
    (h : readEntry block ptr = .ok (k, v, next)) :
    findFrom block limit key ptr =
      if k = key then .ok (some v) else if k > key then .ok none
      else findFrom block limit key next := by
  obtain ⟨head, hhead, rfl, hv, rfl⟩ := readEntry_ok_iff.mp h
  rw [findFrom_eq hlt, hhead, Except.ok_bind, copyOut_ample, hv]
  rfl

/-- One round of the walk of a scan. -/
theorem scanFrom_read {block start stop k v : Bytes} {limit ptr next : Nat} (hlt : ptr < limit)
    (h : readEntry block ptr = .ok (k, v, next)) :
    scanFrom block limit start stop ptr =
      if k > stop then .ok []
      else scanFrom block limit start stop next >>= fun out =>
        .ok (if start ≤ k then (k, v) :: out else out) := by
  obtain ⟨head, hhead, rfl, hv, rfl⟩ := readEntry_ok_iff.mp h
  rw [scanFrom_eq hlt, hhead, Except.ok_bind, copyOut_ample, hv, Machine.alloc_ample]
  by_cases hstart : start ≤ head.key
  · simp only [if_pos hstart, Except.ok_bind]
    rfl
  · simp only [if_neg hstart]
    cases scanFrom block limit start stop head.next <;> rfl

/-- The linear walk by whole records: from `ptr` it reads `es` one after the other
and ends exactly at `limit`. -/
inductive Walks (block : Bytes) (limit : Nat) : Nat → List Entry → Prop
  | done : Walks block limit limit []
  | read {ptr next : Nat} {e : Entry} {es : List Entry} (hlt : ptr < limit)
      (hread : readEntry block ptr = .ok (e.1, e.2, next)) (hrest : Walks block limit next es) :
      Walks block limit ptr (e :: es)

section Walk

variable {block : Bytes} {es : List Entry} {limit ptr : Nat}

/-- A walk starts at the front of encoded entries and ends behind the last one. -/
theorem walks_encoded {a z : Bytes} (hblock : block = a ++ (es.flatMap encodeEntry ++ z))
    (hptr : ptr = a.length) (hlimit : limit = ptr + (es.flatMap encodeEntry).length)
    (hsmall : Small es) : Walks block limit ptr es := by
  induction es generalizing a ptr with
  | nil =>
    obtain rfl : limit = ptr := by simpa using hlimit
    exact .done
  | cons e es ih =>
    obtain ⟨hk, hv⟩ := hsmall e (List.mem_cons_self ..)
    have hlen := length_encodeEntry e
    rw [List.flatMap_cons, List.length_append] at hlimit
    refine .read (by omega) (readEntry_eq (z := es.flatMap encodeEntry ++ z) ?_ hptr hk hv) ?_
    · rw [hblock, List.flatMap_cons, List.append_assoc]
    · apply @ih (ptr + (encodeEntry e).length) (a ++ encodeEntry e)
      · rw [hblock, List.flatMap_cons, List.append_assoc, List.append_assoc]
      · rw [hptr, List.length_append]
      · omega
      · exact fun d hd => hsmall d (List.mem_cons_of_mem _ hd)

/-- The walk of `find_in_block` over ascending entries is a lookup: the early
exit skips only larger keys. -/
theorem Walks.findFrom_eq (h : Walks block limit ptr es)
    (hsorted : es.Pairwise fun x y => x.1 < y.1) (key : Bytes) :
    findFrom block limit key ptr = .ok (SortedMap.lookup key es) := by
  induction h with
  | done =>
    rw [findFrom, if_neg (lt_irrefl limit)]
    rfl
  | @read ptr next e es hlt hread hrest ih =>
    obtain ⟨hhead, htail⟩ := List.pairwise_cons.mp hsorted
    rw [findFrom_read hlt hread, ih htail, SortedMap.lookup]
    by_cases heq : e.1 = key
    · rw [if_pos heq, if_pos heq.symm]
    · rw [if_neg heq, if_neg (Ne.symm heq)]
      by_cases hgt : e.1 > key
      · -- every later key is larger still
        have hnone : SortedMap.lookup key es = none := by
          rw [Option.eq_none_iff_forall_ne_some]
          intro w hw
          have hmem := (SortedMap.lookup_eq_some_of_sorted htail).mp hw
          exact absurd (hhead _ hmem) hgt.asymm
        rw [if_pos hgt, hnone]
      · rw [if_neg hgt]

/-- Is the entry in the scanned range? -/
def inRange (start stop : Bytes) (e : Entry) : Bool := decide (start ≤ e.1) && decide (e.1 ≤ stop)

/-- The walk of `scan_block` over ascending entries filters them. -/
theorem Walks.scanFrom_eq (h : Walks block limit ptr es)
    (hsorted : es.Pairwise fun x y => x.1 < y.1) (start stop : Bytes) :
    scanFrom block limit start stop ptr = .ok (es.filter (inRange start stop)) := by
  induction h with
  | done =>
    rw [scanFrom, if_neg (lt_irrefl limit)]
    rfl
  | @read ptr next e es hlt hread hrest ih =>
    obtain ⟨hhead, htail⟩ := List.pairwise_cons.mp hsorted
    rw [scanFrom_read hlt hread, ih htail]
    by_cases hgt : e.1 > stop
    · -- this entry and every later one are above the range
      have hnil : (e :: es).filter (inRange start stop) = [] := by
        rw [List.filter_eq_nil_iff]
        intro d hd
        have hd' : stop < d.1 := by
          rcases List.mem_cons.mp hd with rfl | hd
          · exact hgt
          · exact hgt.trans (hhead d hd)
        simp [inRange, hd'.not_ge]
      rw [if_pos hgt, hnil]
    · rw [if_neg hgt, Except.ok_bind, List.filter_cons]
      by_cases hge : start ≤ e.1 <;> simp [inRange, hge, not_lt.mp hgt]

end Walk

/-! ## The restart array -/

theorem readLE_flatMap {buf a z : Bytes} {ns : List Nat} {j n : Nat}
    (hbuf : buf = a ++ (ns.flatMap (leBytes 4) ++ z)) (hn : ns[j]? = some n) (hlt : n < 2 ^ 32) :
    readLE 4 buf (a.length + j * 4) = .ok n := by
  obtain ⟨hj, hget⟩ := List.getElem?_eq_some_iff.mp hn
  have hsplit : ns = ns.take j ++ n :: ns.drop (j + 1) := by
    rw [← hget, ← List.drop_eq_getElem_cons hj, List.take_append_drop]
  apply readLE_eq (a := a ++ (ns.take j).flatMap (leBytes 4))
    (z := (ns.drop (j + 1)).flatMap (leBytes 4) ++ z)
  · rw [hbuf]
    conv_lhs => rw [hsplit]
    simp only [List.flatMap_append, List.flatMap_cons, List.append_assoc]
  · rw [List.length_append, length_flatMap_leBytes, List.length_take, min_eq_left hj.le]
    ring
  · exact hlt

/-- The eight-byte key that the restart array spells when it is read as an
entry: its first word is the length 8, the key follows. -/
def danglingKey (es : List Entry) : Bytes :=
  (((blockRestarts es true).flatMap (leBytes 4) ++
    leBytes 4 (blockRestarts es true).length).drop 4).take 8

section Search

variable {es : List Entry} {closed : Bool}

/-- Entries of a block that fits its size field have lengths that fit theirs. -/
theorem small_of_length (hsize : (encodeBlock es closed).length < 2 ^ 32) : Small es := by
  intro e he
  have hle := length_le_of_mem he
  rw [length_encodeBlock] at hsize
  rw [length_encodeEntry] at hle
  omega

/-- Restart `j` is the offset of entry `16 * j`; only the dangling one is behind
the last entry. -/
theorem blockRestarts_get (hne : es ≠ []) {j : Nat} (hj : j < (blockRestarts es closed).length) :
    (blockRestarts es closed)[j]? = some (entryOffset es (16 * j)) ∧ 16 * j ≤ es.length ∧
      (16 * j = es.length → dangling es closed = true) := by
  have hpos : 0 < es.length := List.length_pos_iff.mpr hne
  have hcount : (restartsOf es).length = max 1 ((es.length + 15) / 16) := by simp [restartsOf]
  have hreal : ∀ i < max 1 ((es.length + 15) / 16),
      (restartsOf es)[i]? = some (entryOffset es (16 * i)) := by
    intro i hi
    simp [restartsOf, hi]
  unfold blockRestarts at hj ⊢
  -- with or without a restart behind the last entry
  by_cases hd : dangling es closed = true
  · have hmod : es.length % 16 = 0 := by
      rw [dangling, Bool.and_eq_true] at hd
      exact beq_iff_eq.mp hd.2
    rw [if_pos hd] at hj ⊢
    rw [List.length_append, List.length_singleton, hcount] at hj
    rcases Nat.lt_or_ge j (max 1 ((es.length + 15) / 16)) with hlt | hge
    · refine ⟨?_, by omega, fun _ => hd⟩
      rw [List.getElem?_append_left (by omega), hreal j hlt]
    · -- the restart pushed last
      have hlast : 16 * j = es.length := by omega
      refine ⟨?_, by omega, fun _ => hd⟩
      rw [List.getElem?_append_right (by omega), hcount, hlast,
        show j - max 1 ((es.length + 15) / 16) = 0 by omega]
      rfl
  · rw [if_neg hd, List.append_nil] at hj ⊢
    rw [hcount] at hj
    exact ⟨hreal j hj, by omega, fun h => absurd h (by omega)⟩

/-- A block has a restart. -/
theorem length_blockRestarts_pos (es : List Entry) (closed : Bool) :
    0 < (blockRestarts es closed).length := by
  have hcount : (restartsOf es).length = max 1 ((es.length + 15) / 16) := by simp [restartsOf]
  rw [blockRestarts, List.length_append, hcount]
  omega

/-- No restart points behind the restart array. -/
theorem entryOffset_le (es : List Entry) (j : Nat) :
    entryOffset es j ≤ 8 + (es.flatMap encodeEntry).length := by
  have hsplit : es.flatMap encodeEntry =
      (es.take j).flatMap encodeEntry ++ (es.drop j).flatMap encodeEntry := by
    rw [← List.flatMap_append, List.take_append_drop]
  rw [hsplit, List.length_append, entryOffset]
  omega

/-- The block, cut at entry `j`. -/
theorem encodeBlock_cut (es : List Entry) (closed : Bool) (j : Nat) :
    ∃ a, a.length = entryOffset es j ∧ encodeBlock es closed =
      a ++ ((es.drop j).flatMap encodeEntry ++ ((blockRestarts es closed).flatMap (leBytes 4) ++
        leBytes 4 (blockRestarts es closed).length)) := by
  refine ⟨leBytes 4 es.length ++ (leBytes 4 (8 + (es.flatMap encodeEntry).length +
    4 * (blockRestarts es closed).length + 4) ++ (es.take j).flatMap encodeEntry), ?_, ?_⟩
  · simp only [List.length_append, length_leBytes, entryOffset]
    omega
  · have hsplit : es.flatMap encodeEntry =
        (es.take j).flatMap encodeEntry ++ (es.drop j).flatMap encodeEntry := by
      rw [← List.flatMap_append, List.take_append_drop]
    simp only [encodeBlock, List.append_assoc]
    rw [hsplit]
    simp only [List.append_assoc]

/-- The number of restarts stands last, and the array in front of it. -/
theorem restartArray_eq (hsize : (encodeBlock es closed).length < 2 ^ 32) :
    restartArray (encodeBlock es closed) (encodeBlock es closed).length =
      .ok (entryOffset es es.length, (blockRestarts es closed).length) := by
  obtain ⟨a, ha, hblock⟩ := encodeBlock_cut es closed es.length
  have hlen := length_encodeBlock es closed
  have hend := entryOffset_length es
  rw [List.drop_length, List.flatMap_nil, List.nil_append] at hblock
  have hcount : readLE 4 (encodeBlock es closed) ((encodeBlock es closed).length - 4) =
      .ok (blockRestarts es closed).length := by
    apply readLE_eq (a := a ++ (blockRestarts es closed).flatMap (leBytes 4)) (z := [])
    · rw [hblock, List.append_nil, List.append_assoc]
    · rw [List.length_append, length_flatMap_leBytes]
      omega
    · omega
  -- both differences are of lengths inside the block
  rw [restartArray, subLen_eq (by omega), Except.ok_bind, hcount, Except.ok_bind,
    if_neg (by omega)]
  simp only [subLen_eq (show (blockRestarts es closed).length * 4 ≤
    (encodeBlock es closed).length - 4 by omega), Except.ok_bind, Except.pure_eq_ok]
  rw [show (encodeBlock es closed).length - 4 - (blockRestarts es closed).length * 4 =
    entryOffset es es.length by omega]

/-- A slot of the array is read. -/
theorem readRestart (hne : es ≠ []) (hsize : (encodeBlock es closed).length < 2 ^ 32) {j : Nat}
    (hj : j < (blockRestarts es closed).length) :
    readLE 4 (encodeBlock es closed) (entryOffset es es.length + j * 4) =
      .ok (entryOffset es (16 * j)) := by
  obtain ⟨a, ha, hblock⟩ := encodeBlock_cut es closed es.length
  have hlen := length_encodeBlock es closed
  have hle := entryOffset_le es (16 * j)
  rw [List.drop_length, List.flatMap_nil, List.nil_append] at hblock
  rw [← ha]
  exact readLE_flatMap hblock (blockRestarts_get hne hj).1 (by omega)

/-- The key restart `j` is compared by. -/
def restartKey (es : List Entry) (j : Nat) : Bytes :=
  match es[16 * j]? with
  | some e => e.1
  | none => danglingKey es

/-- A restart at an entry has the key of the entry. -/
theorem restartKey_of_lt {j : Nat} (h : 16 * j < es.length) : restartKey es j = es[16 * j].1 := by
  rw [restartKey, List.getElem?_eq_getElem h]

/-- The dangling one has the key that the array spells. -/
theorem restartKey_length {j : Nat} (h : 16 * j = es.length) : restartKey es j = danglingKey es := by
  rw [restartKey, List.getElem?_eq_none h.ge]

/-- What the restart array spells when it is read as an entry. -/
theorem read_dangling (hne : es ≠ []) (hd : dangling es closed = true)
    (hsize : (encodeBlock es closed).length < 2 ^ 32) :
    readLE 4 (encodeBlock es closed) (entryOffset es es.length) = .ok 8 ∧
      slice (encodeBlock es closed) (entryOffset es es.length + 4) 8 = .ok (danglingKey es) := by
  obtain ⟨a, ha, hblock⟩ := encodeBlock_cut es closed es.length
  have hclosed : closed = true := by
    rw [dangling, Bool.and_eq_true] at hd
    exact hd.1
  subst hclosed
  have hfirst := readRestart hne hsize (length_blockRestarts_pos es true)
  rw [Nat.zero_mul, Nat.add_zero] at hfirst
  rw [List.drop_length, List.flatMap_nil, List.nil_append] at hblock
  -- at least two restarts and their number follow
  have hcount : 2 ≤ (blockRestarts es true).length := by
    have hpos : 0 < (restartsOf es).length := by
      simp only [restartsOf, List.length_map, List.length_range]
      omega
    rw [blockRestarts, if_pos hd, List.length_append, List.length_singleton]
    omega
  refine ⟨hfirst, ?_⟩
  have htail : ((blockRestarts es true).flatMap (leBytes 4) ++
      leBytes 4 (blockRestarts es true).length).length = 4 * (blockRestarts es true).length + 4 := by
    rw [List.length_append, length_flatMap_leBytes, length_leBytes]
  rw [slice, if_pos (by rw [hblock, List.length_append, htail]; omega), ← ha, danglingKey]
  rw [hblock, List.drop_append, show a.length + 4 - a.length = 4 by omega,
    List.drop_eq_nil_of_le (by omega), List.nil_append]

/-- The key at restart `j`: that of an entry, or what the dangling restart reads. -/
theorem readRestartKey (hne : es ≠ []) (hsize : (encodeBlock es closed).length < 2 ^ 32)
    {j : Nat} (hj : j < (blockRestarts es closed).length) :
    ∃ klen, readLE 4 (encodeBlock es closed) (entryOffset es (16 * j)) = .ok klen ∧
      slice (encodeBlock es closed) (entryOffset es (16 * j) + 4) klen =
        .ok (restartKey es j) := by
  obtain ⟨-, hle, hdang⟩ := blockRestarts_get hne hj
  rcases Nat.lt_or_ge (16 * j) es.length with hlt | hge
  · -- the restart of an entry
    obtain ⟨a, ha, hblock⟩ := encodeBlock_cut es closed (16 * j)
    have hsmall := small_of_length hsize _ (List.getElem_mem hlt)
    rw [List.drop_eq_getElem_cons hlt, List.flatMap_cons, encodeEntry] at hblock
    simp only [List.append_assoc] at hblock
    refine ⟨_, readLE_eq hblock ha.symm (show es[16 * j].1.length < 256 ^ 4 by omega), ?_⟩
    rw [restartKey_of_lt hlt]
    apply slice_eq (a := a ++ leBytes 4 es[16 * j].1.length)
    · rw [hblock, List.append_assoc]
    · rw [List.length_append, length_leBytes, ha]
    · rfl
  · -- the dangling restart
    have heq : 16 * j = es.length := by omega
    rw [restartKey_length heq, heq]
    exact ⟨8, read_dangling hne (hdang heq) hsize⟩

/-- The test of the search compares the key searched for with the whole of that key. -/
theorem restartBefore_eq (hne : es ≠ []) (hsize : (encodeBlock es closed).length < 2 ^ 32)
    (key : Bytes) {j : Nat} (hj : j < (blockRestarts es closed).length) :
    restartBefore (encodeBlock es closed) (entryOffset es es.length) key j =
      .ok (decide (restartKey es j < key)) := by
  obtain ⟨klen, hklen, hkey⟩ := readRestartKey hne hsize hj
  rw [restartBefore, readRestart hne hsize hj, Except.ok_bind, hklen, Except.ok_bind,
    slice_min hkey, Except.ok_bind]
  exact congrArg Except.ok (decide_eq_decide.mpr (take_lt_iff _ key))

/-- **Where the walk starts**: at the first entry, at an entry whose key is
below `key`, or behind the last entry. The last case needs a dangling restart
whose key is below `key`. -/
theorem seekRestart_spec (hne : es ≠ []) (hsize : (encodeBlock es closed).length < 2 ^ 32)
    (key : Bytes) :
    ∃ j, seekRestart (encodeBlock es closed) (entryOffset es es.length)
        (blockRestarts es closed).length key = .ok (entryOffset es j) ∧
      ((∃ hj : j < es.length, j = 0 ∨ es[j].1 < key) ∨
        j = es.length ∧ dangling es closed = true ∧ danglingKey es < key) := by
  obtain ⟨res, hres, -, hle, hbelow, -⟩ := BinarySearch.bsearch_spec
    (q := fun j => decide (restartKey es j < key))
    (fun j _ hj => restartBefore_eq hne hsize key hj) (Nat.zero_le _)
  have hpos := length_blockRestarts_pos es closed
  obtain ⟨-, hlen, hdang⟩ := blockRestarts_get hne (show res - 1 < (blockRestarts es closed).length by omega)
  -- the search ends behind a test that holds, or at the front
  have hstart : res - 1 = 0 ∨ restartKey es (res - 1) < key := by
    rcases Nat.eq_zero_or_pos res with rfl | hres0
    · exact Or.inl rfl
    · exact Or.inr (of_decide_eq_true (hbelow hres0))
  refine ⟨16 * (res - 1), ?_, ?_⟩
  · have hidx : (if res > 0 then res - 1 else 0) = res - 1 := by split <;> omega
    rw [seekRestart, hres, Except.ok_bind]
    simp only [hidx]
    exact readRestart hne hsize (by omega)
  -- the restart in front of the result is that of an entry, or the dangling one
  · rcases Nat.lt_or_ge (16 * (res - 1)) es.length with hlt | hge
    · refine Or.inl ⟨hlt, ?_⟩
      rcases hstart with h0 | hkey
      · exact Or.inl (by omega)
      · exact Or.inr (by rwa [restartKey_of_lt hlt] at hkey)
    · have heq : 16 * (res - 1) = es.length := by omega
      have hlen0 : 0 < es.length := List.length_pos_iff.mpr hne
      refine Or.inr ⟨heq, hdang heq, ?_⟩
      rw [← restartKey_length heq]
      exact hstart.resolve_left (by omega)

/-- Entries in front of one whose key is not above `key` do not matter. -/
theorem lookup_drop {j : Nat} (hsorted : es.Pairwise fun x y => x.1 < y.1) {key : Bytes}
    (hj : j < es.length) (hkey : j = 0 ∨ es[j].1 < key) :
    SortedMap.lookup key (es.drop j) = SortedMap.lookup key es := by
  rcases hkey with rfl | hkey
  · rw [List.drop_zero]
  · have hiff : ∀ v, SortedMap.lookup key (es.drop j) = some v ↔ SortedMap.lookup key es = some v := by
      intro v
      rw [SortedMap.lookup_eq_some_of_sorted (hsorted.sublist (List.drop_sublist j es)),
        SortedMap.lookup_eq_some_of_sorted hsorted]
      constructor
      · exact List.mem_of_mem_drop
      · intro hmem
        rw [← List.take_append_drop j es, List.mem_append] at hmem
        refine hmem.resolve_left fun htake => ?_
        -- an entry in front of `j` has a smaller key
        obtain ⟨i, hi, hget⟩ := List.mem_iff_getElem.mp htake
        rw [List.length_take] at hi
        have hlt := List.pairwise_iff_getElem.mp hsorted i j (by omega) hj (by omega)
        rw [List.getElem_take] at hget
        rw [hget] at hlt
        exact absurd hkey hlt.asymm
    exact Option.ext hiff

/-- The walk from entry `j` reads the entries from there on. -/
theorem walks_at (hsize : (encodeBlock es closed).length < 2 ^ 32) (j : Nat) :
    Walks (encodeBlock es closed) (entryOffset es es.length) (entryOffset es j) (es.drop j) := by
  obtain ⟨a, ha, hblock⟩ := encodeBlock_cut es closed j
  apply walks_encoded hblock ha.symm
  · have hsplit : es.flatMap encodeEntry =
        (es.take j).flatMap encodeEntry ++ (es.drop j).flatMap encodeEntry := by
      rw [← List.flatMap_append, List.take_append_drop]
    rw [entryOffset_length, hsplit, List.length_append, entryOffset]
    omega
  · exact fun e he => small_of_length hsize e (List.mem_of_mem_drop he)

/-- A walk that looks for a key finds what a lookup finds. -/
theorem walk_at (hsize : (encodeBlock es closed).length < 2 ^ 32)
    (hsorted : es.Pairwise fun x y => x.1 < y.1) (key : Bytes) (j : Nat) :
    findFrom (encodeBlock es closed) (entryOffset es es.length) key (entryOffset es j) =
      .ok (SortedMap.lookup key (es.drop j)) :=
  (walks_at hsize j).findFrom_eq (hsorted.sublist (List.drop_sublist j es)) key

/-- **Searching a block** returns the stored value; the exception is a search
that ended at the dangling restart, which returns nothing. -/
theorem findBlock_spec (hne : es ≠ []) (hsize : (encodeBlock es closed).length < 2 ^ 32)
    (hsorted : es.Pairwise fun x y => x.1 < y.1) (key : Bytes) :
    ∃ r, findBlock (encodeBlock es closed) (encodeBlock es closed).length key = .ok r ∧
      (r = SortedMap.lookup key es ∨
        r = none ∧ dangling es closed = true ∧ danglingKey es < key) := by
  obtain ⟨j, hseek, hj⟩ := seekRestart_spec hne hsize key
  rw [findBlock, restartArray_eq hsize, Except.ok_bind]
  simp only [hseek, Except.ok_bind, walk_at hsize hsorted]
  refine ⟨_, rfl, ?_⟩
  rcases hj with ⟨hlt, hkey⟩ | ⟨rfl, hdang⟩
  · exact Or.inl (lookup_drop hsorted hlt hkey)
  · refine Or.inr ⟨?_, hdang⟩
    rw [List.drop_length]
    rfl

/-- The search for the last key of a block ends at the dangling restart when
the dangling key is below it: every test of the search holds. -/
theorem findBlock_dangling (hne : es ≠ []) (hsize : (encodeBlock es closed).length < 2 ^ 32)
    (hsorted : es.Pairwise fun x y => x.1 < y.1) (hd : dangling es closed = true)
    (hkey : danglingKey es < (es.getLast hne).1) :
    findBlock (encodeBlock es closed) (encodeBlock es closed).length (es.getLast hne).1 =
      .ok none := by
  have hpos := length_blockRestarts_pos es closed
  have hlen : 0 < es.length := List.length_pos_iff.mpr hne
  have hmod : es.length % 16 = 0 := by
    rw [dangling, Bool.and_eq_true] at hd
    exact beq_iff_eq.mp hd.2
  have hcount : 16 * ((blockRestarts es closed).length - 1) = es.length := by
    rw [blockRestarts, if_pos hd]
    simp only [restartsOf, List.length_append, List.length_map, List.length_range,
      List.length_singleton]
    omega
  -- every restart key is below the last key, the dangling one by assumption
  have hall : ∀ j, 0 ≤ j → j < (blockRestarts es closed).length →
      restartBefore (encodeBlock es closed) (entryOffset es es.length) (es.getLast hne).1 j =
        .ok true := by
    intro j _ hj
    obtain ⟨-, hle, -⟩ := blockRestarts_get hne hj
    rw [restartBefore_eq hne hsize _ hj]
    congr 1
    apply decide_eq_true
    rcases Nat.lt_or_ge (16 * j) es.length with hlt | hge
    · -- the restart of an entry in front of the last one
      rw [restartKey_of_lt hlt, List.getLast_eq_getElem]
      exact List.pairwise_iff_getElem.mp hsorted _ _ hlt (by omega) (by omega)
    · rw [restartKey_length (by omega)]
      exact hkey
  -- so the search ends at the dangling restart, behind all entries
  have hseek : seekRestart (encodeBlock es closed) (entryOffset es es.length)
      (blockRestarts es closed).length (es.getLast hne).1 = .ok (entryOffset es es.length) := by
    rw [seekRestart, BinarySearch.bsearch_of_forall (Nat.zero_le _) hall, Except.ok_bind]
    simp only [if_pos hpos]
    rw [readRestart hne hsize (by omega), hcount]
  rw [findBlock, restartArray_eq hsize, Except.ok_bind]
  simp only [hseek, Except.ok_bind, walk_at hsize hsorted, List.drop_length]
  rfl

/-! ## Scanning a block -/

/-- A walk that collects a range collects the entries in it. -/
theorem scan_at (hsize : (encodeBlock es closed).length < 2 ^ 32)
    (hsorted : es.Pairwise fun x y => x.1 < y.1) (start stop : Bytes) (j : Nat) :
    scanFrom (encodeBlock es closed) (entryOffset es es.length) start stop (entryOffset es j) =
      .ok ((es.drop j).filter (inRange start stop)) :=
  (walks_at hsize j).scanFrom_eq (hsorted.sublist (List.drop_sublist j es)) start stop

/-- Entries in front of one whose key is below the range do not matter. -/
theorem filter_drop {j : Nat} (hsorted : es.Pairwise fun x y => x.1 < y.1) {start : Bytes}
    (stop : Bytes) (hj : j < es.length) (hkey : j = 0 ∨ es[j].1 < start) :
    (es.drop j).filter (inRange start stop) = es.filter (inRange start stop) := by
  rcases hkey with rfl | hkey
  · rw [List.drop_zero]
  · have hnil : (es.take j).filter (inRange start stop) = [] := by
      rw [List.filter_eq_nil_iff]
      intro e he
      obtain ⟨i, hi, hget⟩ := List.mem_iff_getElem.mp he
      rw [List.length_take] at hi
      have hlt := List.pairwise_iff_getElem.mp hsorted i j (by omega) hj (by omega)
      rw [List.getElem_take] at hget
      rw [hget] at hlt
      simp [inRange, (hlt.trans hkey).not_ge]
    conv_rhs => rw [← List.take_append_drop j es, List.filter_append, hnil, List.nil_append]

/-- **Scanning a block** returns its entries in range, or nothing when the
search ended at the dangling restart. -/
theorem scanBlock_spec (hne : es ≠ []) (hsize : (encodeBlock es closed).length < 2 ^ 32)
    (hsorted : es.Pairwise fun x y => x.1 < y.1) (start stop : Bytes) :
    ∃ rows, scanBlockRows (encodeBlock es closed) (encodeBlock es closed).length start stop =
        .ok rows ∧
      (rows = es.filter (inRange start stop) ∨
        rows = [] ∧ dangling es closed = true ∧ danglingKey es < start) := by
  obtain ⟨j, hseek, hj⟩ := seekRestart_spec hne hsize start
  rw [scanBlockRows, restartArray_eq hsize, Except.ok_bind]
  simp only [hseek, Except.ok_bind, scan_at hsize hsorted]
  refine ⟨_, rfl, ?_⟩
  rcases hj with ⟨hlt, hkey⟩ | ⟨rfl, hdang⟩
  · exact Or.inl (filter_drop hsorted stop hlt hkey)
  · refine Or.inr ⟨?_, hdang⟩
    rw [List.drop_length]
    rfl

end Search

end SSTable

end Zenith
