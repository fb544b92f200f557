import Zenith.Crdt.LWWRegister

/-!
# Zenith — the register codec

Serialized clocks are `[Count(u32)] ([Len(u32)] NodeID [Val(u64)])*`, serialized registers
`[ClockLen(u32)] Clock Value`. Lengths are truncated to 32 bits by the writer, so a clock
reads back only when its number of entries and its node ids fit (`VectorClock.LengthsFit`),
and a register only when the whole encoding of its clock does (`VectorClock.Encodable`).

The readers work on untrusted bytes. `LWWRegister::deserialize` compares the size of its
input with the 32-bit sum `4 + vc_len`, which can wrap; what it reads behind the end of its
input is a fault. Input that is too short for its header is not rejected: the reader takes
all of it as a value without a clock.

A value may contain anything, encodings of other registers included, because it is what is
left behind the clock. Ids may contain anything as well, as each is preceded by its length.

The proof of the round trip is an induction on the entries that are still to be read. Its
invariant is a split of the buffer: the bytes in front of the pointer, and the encoding of
the entries behind it. That entries are ascending is what makes inserting them one by one
rebuild the list.

Main results: `VectorClock.deserialize_serialize` and `LWWRegister.deserialize_serialize`,
the round trips, and `register_codec_round_trip`, which adds that encoding is injective.
-/

namespace Zenith

open Bytes

namespace VectorClock

/-- `[Len(u32)] NodeID [Val(u64)]`, little-endian. -/
def serializeEntry (e : NodeID × Counter) : Bytes :=
  leBytes 4 e.1.length ++ (e.1 ++ leBytes 8 e.2.toNat)

def serialize (c : VectorClock) : Bytes :=
  leBytes 4 c.clock.toList.length ++ c.clock.toList.flatMap serializeEntry

/-- The loop of `deserialize`: at most `i` more entries, the next one at `ptr`.
It stops early when the buffer is too short for the next entry. -/
def readEntries (buf : Bytes) : Nat → Nat → SortedMap NodeID Counter →
    Except Fault (SortedMap NodeID Counter)
  | 0, _, m => .ok m
  | i + 1, ptr, m =>
    if ptr + 4 > buf.length then .ok m
    else do
      let nlen ← readLE 4 buf ptr
      if ptr + 4 + nlen + 8 > buf.length then return m
      let node ← slice buf (ptr + 4) nlen
      let count ← readLE 8 buf (ptr + 4 + nlen)
      readEntries buf i (ptr + 4 + nlen + 8) (m.insert node (UInt64.ofNat count))

def deserialize (buf : Bytes) : Except Fault VectorClock :=
  if buf.length < 4 then .ok empty
  else do
    let size ← readLE 4 buf 0
    return ⟨← readEntries buf size 4 SortedMap.empty⟩

/-- The number of entries and the length of every node id fit 32 bits. -/
def LengthsFit (c : VectorClock) : Prop :=
  c.clock.toList.length < 2 ^ 32 ∧ ∀ e ∈ c.clock.toList, e.1.length < 2 ^ 32

/-- The length of the clock's encoding fits 32 bits. -/
def Encodable (c : VectorClock) : Prop := c.serialize.length < 2 ^ 32

instance (c : VectorClock) : Decidable c.LengthsFit := by unfold LengthsFit; infer_instance

instance (c : VectorClock) : Decidable c.Encodable := by unfold Encodable; infer_instance

end VectorClock

namespace LWWRegister

def serialize (r : LWWRegister) : Bytes :=
  leBytes 4 r.clock.serialize.length ++ (r.clock.serialize ++ r.value)

def deserialize (buf : Bytes) : Except Fault LWWRegister :=
  if buf.length < 4 then .ok ⟨buf, .empty⟩
  else do
    let vcLen ← readLE 4 buf 0
    -- `4 + vc_len` is computed in 32 bits
    if buf.length < (4 + vcLen) % 2 ^ 32 then .ok ⟨buf, .empty⟩
    else do
      let view ← slice buf 4 vcLen
      let vc ← VectorClock.deserialize view
      let valLen ← subLen buf.length (4 + vcLen)
      let val ← slice buf (4 + vcLen) valLen
      return ⟨val, vc⟩

end LWWRegister

/-! ## Clocks read back -/

namespace VectorClock

@[simp] theorem length_serializeEntry (e : NodeID × Counter) :
    (serializeEntry e).length = e.1.length + 12 := by
  simp [serializeEntry]
  omega

theorem length_le_flatMap_serializeEntry (es : List (NodeID × Counter)) :
    12 * es.length ≤ (es.flatMap serializeEntry).length := by
  induction es with
  | nil => simp
  | cons e es ih =>
    simp only [List.flatMap_cons, List.length_append, List.length_cons, length_serializeEntry]
    omega

/-- The read loop rebuilds the map from the entries in front of it, when they
are ascending and lie above everything read so far. -/
theorem readEntries_serialize {es : List (NodeID × Counter)} {pre buf : Bytes}
    {m : SortedMap NodeID Counter} (hbuf : buf = pre ++ es.flatMap serializeEntry)
    (hsize : ∀ e ∈ es, e.1.length < 2 ^ 32)
    (hsorted : (m.toList ++ es).Pairwise fun a b => a.1 < b.1) :
    ∃ m', readEntries buf es.length pre.length m = .ok m' ∧ m'.toList = m.toList ++ es := by
  induction es generalizing pre m with
  | nil => exact ⟨m, rfl, by simp⟩
  | cons e es ih =>
    have hrest : buf = pre ++ (leBytes 4 e.1.length ++
        (e.1 ++ (leBytes 8 e.2.toNat ++ es.flatMap serializeEntry))) := by
      rw [hbuf, List.flatMap_cons, serializeEntry]
      simp only [List.append_assoc]
    obtain ⟨hid, hids⟩ := List.forall_mem_cons.mp hsize
    -- so the guards of the loop pass
    have hlen : buf.length = pre.length + (e.1.length + 12 +
        (es.flatMap serializeEntry).length) := by
      rw [hbuf, List.length_append, List.flatMap_cons, List.length_append, length_serializeEntry]
    -- the three reads of one entry
    have hnlen : readLE 4 buf pre.length = .ok e.1.length :=
      readLE_eq hrest rfl (by omega)
    have hnode : slice buf (pre.length + 4) e.1.length = .ok e.1 :=
      slice_eq (a := pre ++ leBytes 4 e.1.length) (by rw [hrest, List.append_assoc]) (by simp) rfl
    have hcount : readLE 8 buf (pre.length + 4 + e.1.length) = .ok e.2.toNat :=
      readLE_eq (a := pre ++ (leBytes 4 e.1.length ++ e.1)) (z := es.flatMap serializeEntry)
        (by rw [hrest]; simp only [List.append_assoc]) (by simp; omega) e.2.toNat_lt
    -- entries come in order, so each is inserted behind the others
    have hlast : ∀ d ∈ m.toList, d.1 < e.1 := fun d hd =>
      (List.pairwise_append.mp hsorted).2.2 d hd e (List.mem_cons_self ..)
    have hinsert := SortedMap.toList_insert_last e.2 hlast
    have hnext : pre.length + 4 + e.1.length + 8 = (pre ++ serializeEntry e).length := by
      simp
      omega
    obtain ⟨m', hread, hm'⟩ := @ih (pre ++ serializeEntry e) (m.insert e.1 e.2)
      (by rw [hbuf, List.flatMap_cons, List.append_assoc]) hids
      (by rw [hinsert, List.append_assoc]; exact hsorted)
    refine ⟨m', ?_, by rw [hm', hinsert, List.append_assoc]; rfl⟩
    rw [List.length_cons, readEntries, if_neg (by omega), hnlen, Except.ok_bind,
      if_neg (by omega), hnode, Except.ok_bind, hcount, Except.ok_bind, UInt64.ofNat_toNat,
      hnext, hread]

/-- **Round trip** of clocks: the entry loop rebuilds the map entry by entry. -/
theorem deserialize_serialize {c : VectorClock} (h : c.LengthsFit) :
    deserialize c.serialize = .ok c := by
  obtain ⟨hcount, hids⟩ := h
  have hlen : c.serialize.length = 4 + (c.clock.toList.flatMap serializeEntry).length := by
    simp [serialize]
  have hsize : readLE 4 c.serialize 0 = .ok c.clock.toList.length :=
    readLE_eq (a := []) rfl rfl (by omega)
  obtain ⟨m, hread, hm⟩ := @readEntries_serialize c.clock.toList
    (leBytes 4 c.clock.toList.length) c.serialize SortedMap.empty rfl hids c.clock.sorted
  have heq : m = c.clock := by
    cases m; cases hc : c.clock; simp_all [SortedMap.empty]
  rw [length_leBytes] at hread
  rw [deserialize, if_neg (by omega), hsize, Except.ok_bind, hread, Except.ok_bind, heq]
  rfl

/-- An encoding that fits leaves room for no more entries and no longer ids. Each entry
takes twelve bytes and its id. -/
theorem Encodable.lengthsFit {c : VectorClock} (h : c.Encodable) : c.LengthsFit := by
  have hlen : c.serialize.length = 4 + (c.clock.toList.flatMap serializeEntry).length := by
    simp [serialize]
  have hcount := length_le_flatMap_serializeEntry c.clock.toList
  unfold Encodable at h
  refine ⟨by omega, ?_⟩
  intro e he
  have hentry : (serializeEntry e).length ≤ (c.clock.toList.flatMap serializeEntry).length :=
    (List.sublist_flatten_of_mem (List.mem_map_of_mem he)).length_le
  rw [length_serializeEntry] at hentry
  omega

/-- The bytes that the entries of a clock take. -/
def entriesLength (m : SortedMap NodeID Counter) : Nat := (m.toList.flatMap serializeEntry).length

/-- An insertion adds at most one entry; over an entry with the same id it adds nothing. -/
theorem length_insertEntry_le (node : NodeID) (count : Counter) (es : List (NodeID × Counter)) :
    ((SortedMap.insertEntry node count es).flatMap serializeEntry).length ≤
      (es.flatMap serializeEntry).length + (node.length + 12) := by
  induction es with
  | nil => simp [SortedMap.insertEntry]
  | cons e es ih =>
    rw [SortedMap.insertEntry]
    split_ifs with hlt heq
    · simp only [List.flatMap_cons, List.length_append, length_serializeEntry]
      omega
    · simp only [List.flatMap_cons, List.length_append, length_serializeEntry]
      omega
    · simp only [List.flatMap_cons, List.length_append, length_serializeEntry] at ih ⊢
      omega

/-- The loop reads at most as many bytes of entries as the buffer has left. By induction on
the number of entries that may follow. -/
theorem entriesLength_readEntries {buf : Bytes} {i ptr : Nat} {m m' : SortedMap NodeID Counter}
    (h : readEntries buf i ptr m = .ok m') (hptr : ptr ≤ buf.length) :
    entriesLength m' + ptr ≤ entriesLength m + buf.length := by
  induction i generalizing ptr m with
  | zero =>
    obtain rfl := Except.ok.inj h
    omega
  | succ i ih =>
    rw [readEntries] at h
    split at h
    · obtain rfl := Except.ok.inj h
      omega
    · obtain ⟨nlen, -, h⟩ := Except.bind_eq_ok_iff.mp h
      split at h
      · obtain rfl := Except.ok.inj h
        omega
      · obtain ⟨node, hnode, h⟩ := Except.bind_eq_ok_iff.mp h
        obtain ⟨count, -, h⟩ := Except.bind_eq_ok_iff.mp h
        have hlen := slice_ok_length hnode
        have hinsert : entriesLength (m.insert node (UInt64.ofNat count)) ≤
            entriesLength m + (node.length + 12) := length_insertEntry_le _ _ _
        have := ih h (by omega)
        omega

/-- A clock read from a buffer is no longer than the buffer. -/
theorem length_of_deserialize {buf : Bytes} {c : VectorClock} (h : deserialize buf = .ok c) :
    c.serialize.length ≤ max 4 buf.length := by
  have hlen : ∀ m : SortedMap NodeID Counter,
      (serialize ⟨m⟩).length = 4 + entriesLength m := by
    intro m
    simp [serialize, entriesLength]
  rw [deserialize] at h
  split at h
  · obtain rfl := Except.ok.inj h
    exact le_max_left _ _
  · obtain ⟨size, -, h⟩ := Except.bind_eq_ok_iff.mp h
    obtain ⟨m, hread, h⟩ := Except.bind_eq_ok_iff.mp h
    obtain rfl := Except.ok.inj h
    have hbound := entriesLength_readEntries hread (by omega)
    have hempty : entriesLength SortedMap.empty = 0 := rfl
    rw [hlen]
    omega

end VectorClock

/-! ## Registers read back -/

namespace LWWRegister

theorem length_serialize (r : LWWRegister) :
    r.serialize.length = 4 + r.clock.serialize.length + r.value.length := by
  simp [serialize]
  omega

theorem serialize_ne_nil (r : LWWRegister) : r.serialize ≠ [] := by
  intro h
  have := r.length_serialize
  simp [h] at this
  omega

/-- **Round trip.** A register whose clock fits the length fields reads back
unchanged, whatever its value is. -/
theorem deserialize_serialize {r : LWWRegister} (h : r.clock.Encodable) :
    deserialize r.serialize = .ok r := by
  have hlen := r.length_serialize
  have hclock := VectorClock.deserialize_serialize h.lengthsFit
  unfold VectorClock.Encodable at h
  have hvc : readLE 4 r.serialize 0 = .ok r.clock.serialize.length :=
    readLE_eq (a := []) rfl rfl (by omega)
  have hview : slice r.serialize 4 r.clock.serialize.length = .ok r.clock.serialize :=
    slice_eq (a := leBytes 4 r.clock.serialize.length) rfl (by simp) rfl
  have hval : slice r.serialize (4 + r.clock.serialize.length) r.value.length = .ok r.value :=
    slice_eq (a := leBytes 4 r.clock.serialize.length ++ r.clock.serialize) (z := [])
      (by rw [serialize, List.append_nil, List.append_assoc]) (by simp) rfl
  have hsub : r.serialize.length - (4 + r.clock.serialize.length) = r.value.length := by omega
  have hwrap : ¬ r.serialize.length < (4 + r.clock.serialize.length) % 2 ^ 32 := by
    have := Nat.mod_le (4 + r.clock.serialize.length) (2 ^ 32)
    omega
  rw [deserialize, if_neg (by omega), hvc, Except.ok_bind, if_neg hwrap]
  simp only [hview, hclock, subLen_eq (show 4 + r.clock.serialize.length ≤ r.serialize.length by
    omega), hsub, hval, Except.ok_bind, Except.pure_eq_ok]

/-- A register read from bytes has a clock that can be written again. Its clock was in a
buffer whose length is a 32-bit number. -/
theorem encodable_of_deserialize {buf : Bytes} {r : LWWRegister}
    (h : deserialize buf = .ok r) : r.clock.Encodable := by
  have hempty : VectorClock.empty.Encodable := by decide
  rw [deserialize] at h
  split at h
  · obtain rfl := Except.ok.inj h
    exact hempty
  · obtain ⟨vcLen, hread, h⟩ := Except.bind_eq_ok_iff.mp h
    split at h
    · obtain rfl := Except.ok.inj h
      exact hempty
    · obtain ⟨view, hview, h⟩ := Except.bind_eq_ok_iff.mp h
      obtain ⟨vc, hvc, h⟩ := Except.bind_eq_ok_iff.mp h
      obtain ⟨valLen, -, h⟩ := Except.bind_eq_ok_iff.mp h
      obtain ⟨val, -, h⟩ := Except.bind_eq_ok_iff.mp h
      obtain rfl := Except.ok.inj h
      have hlen := VectorClock.length_of_deserialize hvc
      have hbound := readLE_lt hread
      rw [slice_ok_length hview] at hlen
      show vc.serialize.length < 2 ^ 32
      omega

/-- Encodable registers with one encoding are one register. -/
theorem serialize_inj {r s : LWWRegister} (hr : r.clock.Encodable) (hs : s.clock.Encodable)
    (h : r.serialize = s.serialize) : r = s := by
  have hread := deserialize_serialize hr
  rw [h, deserialize_serialize hs] at hread
  exact (Except.ok.inj hread).symm

/-- **The codec.** Clocks and registers read back unchanged as long as their length fields
are not truncated, so their encodings are injective. The bounds are on the encoding and not
on the machine: a clock of `2 ^ 32` bytes cannot be told from a shorter one. -/
theorem register_codec_round_trip :
    (∀ c : VectorClock, c.LengthsFit → VectorClock.deserialize c.serialize = .ok c) ∧
      (∀ r : LWWRegister, r.clock.Encodable → deserialize r.serialize = .ok r) ∧
      (∀ c d : VectorClock, c.LengthsFit → d.LengthsFit → c.serialize = d.serialize → c = d) ∧
      ∀ r s : LWWRegister, r.clock.Encodable → s.clock.Encodable →
        r.serialize = s.serialize → r = s := by
  refine ⟨fun c hc => VectorClock.deserialize_serialize hc, fun r hr => deserialize_serialize hr,
    ?_, fun r s hr hs h => serialize_inj hr hs h⟩
  intro c d hc hd h
  have hread := VectorClock.deserialize_serialize hc
  rw [h, VectorClock.deserialize_serialize hd] at hread
  exact (Except.ok.inj hread).symm

/-- A clock with an empty id and a zero counter, under a value that is itself the
encoding of that clock. -/
theorem register_codec_round_trip_nested :
    let c : VectorClock := ⟨(SortedMap.empty.insert [65] 0).insert [] 18446744073709551615⟩
    let r : LWWRegister := ⟨c.serialize, c⟩
    VectorClock.deserialize c.serialize = .ok c ∧ deserialize r.serialize = .ok r ∧
      c.serialize ≠ VectorClock.empty.serialize ∧ r.serialize ≠ serialize ⟨[], c⟩ := by
  intro c r
  have hlengths : c.LengthsFit := by decide +kernel
  have hencodable : r.clock.Encodable := by decide +kernel
  obtain ⟨hclock, hregister, hclockInj, hregisterInj⟩ := register_codec_round_trip
  refine ⟨hclock c hlengths, hregister r hencodable, fun h => ?_, fun h => ?_⟩
  · exact absurd (hclockInj c .empty hlengths (by decide) h) (by decide)
  · exact absurd (hregisterInj r ⟨[], c⟩ hencodable hencodable h) (by decide)

end LWWRegister

end Zenith
