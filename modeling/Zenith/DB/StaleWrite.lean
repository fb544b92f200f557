import Zenith.DB.History

/-!
# Zenith — stale writes from peers

`put(key, LWWRegister)` resolves an incoming register against what `get_crdt` returns. A
stale register, one whose clock happens-before the clock of the stored register, loses the
merge and changes nothing, but only while the stored register is live: `get_crdt` hides a
tombstone, the merge is skipped, and the stale register is stored in its place. So a removal
does not protect a key from values that it was made after.

What the reads then give is the incoming register as it comes back from its bytes. They are
unchanged if that is a tombstone as well, and `StoredAsTombstone` says so without reference
to a read. For a clock that can be encoded it is the same as an empty value.

The result is about the state that a run reaches from an empty directory, because there the
memtables hold the last record of every key, and it is an equivalence: nothing is assumed of
the incoming register but that it is stale.

Main result: `stale_put_iff`.
-/

namespace Zenith

open Bytes

namespace LWWRegister

/-- The stored form of the register reads back as a tombstone. -/
def StoredAsTombstone (r : LWWRegister) : Prop :=
  ∃ back, deserialize r.serialize = .ok back ∧ back.value = []

/-- A register with an encodable clock is stored as a tombstone when it is one. -/
theorem storedAsTombstone_iff {r : LWWRegister} (h : r.clock.Encodable) :
    r.StoredAsTombstone ↔ r.value = [] := by
  unfold StoredAsTombstone
  rw [deserialize_serialize h]
  constructor
  · rintro ⟨back, hback, hnil⟩
    rw [Except.ok.inj hback]
    exact hnil
  · intro hnil
    exact ⟨r, rfl, hnil⟩

end LWWRegister

namespace ZenithDB

/-- While a memtable holds the key, `get_crdt` reads the stored bytes there. -/
theorem getCrdt_of_lookupMem {db : ZenithDB} {key raw : Bytes}
    (h : db.lookupMem key = some raw) : db.getCrdt key = readRegister (some raw) := by
  unfold getCrdt lookup
  rw [h]
  rfl

/-- What is shown of bytes that can be read. -/
theorem readRegister_of_deserialize {raw : Bytes} {r : LWWRegister}
    (h : LWWRegister.deserialize raw = .ok r) :
    readRegister (some raw) = .ok (if r.value = [] then none else some r) := by
  rw [readRegister, h]
  rfl

/-- What `get_crdt` returns is live. -/
theorem getCrdt_live {db : ZenithDB} {key : Bytes} {r : LWWRegister} (h : db.getCrdt key = .ok (some r)) :
    r.value ≠ [] := by
  unfold getCrdt at h
  obtain ⟨found, -, h⟩ := Except.bind_eq_ok_iff.mp h
  cases found with
  | none => exact absurd (Except.ok.inj h) (by simp)
  | some raw =>
    obtain ⟨reg, -, h⟩ := Except.bind_eq_ok_iff.mp h
    have heq := Except.ok.inj h
    by_cases hnil : reg.value = []
    · rw [if_pos hnil] at heq
      exact absurd heq (by simp)
    · rw [if_neg hnil] at heq
      obtain rfl := Option.some.inj heq
      exact hnil

/-- What `get_crdt` returns right after a remote write. -/
theorem getCrdt_putCrdt {db db' : ZenithDB} {usage : Nat} {key : Bytes} {incoming : LWWRegister}
    {existing : Option LWWRegister} (hget : db.getCrdt key = .ok existing)
    (hput : db.putCrdt usage key incoming = .ok db') :
    db'.getCrdt key = readRegister (some (resolve incoming existing).serialize) := by
  unfold putCrdt at hput
  rw [hget, Except.ok_bind] at hput
  obtain rfl := Except.ok.inj hput
  apply getCrdt_of_lookupMem
  rw [lookupMem_storeRecord _ _ (LWWRegister.serialize_ne_nil _), if_pos rfl]

/-- A remote write succeeds whenever the key can be read. -/
theorem putCrdt_ok {db : ZenithDB} {key : Bytes} {existing : Option LWWRegister}
    (hget : db.getCrdt key = .ok existing) (usage : Nat) (incoming : LWWRegister) :
    ∃ db', db.putCrdt usage key incoming = .ok db' := by
  unfold putCrdt
  rw [hget, Except.ok_bind]
  exact ⟨_, rfl⟩

/-- **Stale writes.** In every state that a run reaches from an empty directory, a remote
write whose clock happens-before that of the register stored last leaves both reads of the
key as they were, if and only if the stored register is live or the incoming one is itself
stored as a tombstone.

Hypotheses:
* `hrun` — the state is one that a run reaches; its steps are any, and no sizes are assumed;
* `hlast`, `hstored` — `stored` is the register that was stored last for the key, as its
  bytes read back;
* `hstale` — the clock of what comes in is before its clock. -/
theorem stale_put_iff {p : Platform} {nodeId : NodeID} {counter : Nat} {as : List Action}
    {db : ZenithDB} (hrun : (system p).run (fresh nodeId counter) as = .ok db)
    {key raw : Bytes} {stored : LWWRegister}
    (hlast : History.last key ((system p).trace (fresh nodeId counter) as) = some raw)
    (hstored : LWWRegister.deserialize raw = .ok stored)
    {incoming : LWWRegister} (hstale : incoming.clock < stored.clock) (usage : Nat) :
    (∃ db', db.putCrdt usage key incoming = .ok db' ∧
        db'.get key = db.get key ∧ db'.getCrdt key = db.getCrdt key) ↔
      stored.value ≠ [] ∨ incoming.StoredAsTombstone := by
  have hmem : db.lookupMem key = some raw := by
    rw [lookupMem_run hrun, hlast]
    rfl
  have hget : db.getCrdt key = .ok (if stored.value = [] then none else some stored) := by
    rw [getCrdt_of_lookupMem hmem, readRegister_of_deserialize hstored]
  -- `get` shows nothing that `get_crdt` does not
  have hboth : ∀ db' : ZenithDB, db'.getCrdt key = db.getCrdt key → db'.get key = db.get key := by
    intro db' h
    unfold ZenithDB.get
    rw [h]
  obtain ⟨db', hput⟩ := putCrdt_ok hget usage incoming
  have hafter := getCrdt_putCrdt hget hput
  have hchange : (∃ d, db.putCrdt usage key incoming = .ok d ∧
      d.get key = db.get key ∧ d.getCrdt key = db.getCrdt key) ↔
      db'.getCrdt key = db.getCrdt key := by
    constructor
    · rintro ⟨d, hd, -, hcrdt⟩
      rw [hput] at hd
      rwa [Except.ok.inj hd]
    · intro h
      exact ⟨db', hput, hboth db' h, h⟩
  -- either the memtable has a tombstone, or the register that wins
  rw [hchange]
  by_cases hlive : stored.value = []
  · -- the tombstone is hidden, so the incoming register is stored as it is
    rw [if_pos hlive] at hget hafter
    rw [hafter, hget, resolve]
    constructor
    · intro h
      right
      unfold readRegister at h
      obtain ⟨back, hback, h⟩ := Except.bind_eq_ok_iff.mp h
      refine ⟨back, hback, ?_⟩
      by_contra hne
      rw [if_neg hne] at h
      exact absurd (Except.ok.inj h) (by simp)
    · rintro (hne | ⟨back, hback, hnil⟩)
      · exact absurd hlive hne
      · rw [readRegister_of_deserialize hback, if_pos hnil]
  · -- the stored register wins the merge and is written back
    rw [if_neg hlive] at hget hafter
    have hwin : resolve incoming (some stored) = stored := LWWRegister.merge_of_lt hstale
    have hback := LWWRegister.deserialize_serialize
      (LWWRegister.encodable_of_deserialize hstored)
    rw [hafter, hget, hwin, readRegister_of_deserialize hback, if_neg hlive]
    simp [hlive]

/-- An overwritten value is delivered again. -/
theorem stale_put_iff_overwritten :
    ∃ db db', (system .stable).run (fresh [65] 0) [.put 0 [107] [118], .put 0 [107] [119]] = .ok db ∧
      db.putCrdt 0 [107] ⟨[118], VectorClock.empty.increment [65]⟩ = .ok db' ∧
      db'.get [107] = db.get [107] ∧ db'.getCrdt [107] = db.getCrdt [107] := by
  obtain ⟨db, hrun⟩ := Except.exists_eq_ok (x := (system .stable).run (fresh [65] 0)
    [.put 0 [107] [118], .put 0 [107] [119]]) (by decide +kernel)
  have hstored := LWWRegister.deserialize_serialize
    (r := ⟨[119], (VectorClock.empty.increment [65]).increment [65]⟩) (by decide +kernel)
  have hstale : (⟨[118], VectorClock.empty.increment [65]⟩ : LWWRegister).clock <
      (⟨[119], (VectorClock.empty.increment [65]).increment [65]⟩ : LWWRegister).clock := by
    decide +kernel
  have hlast : History.last [107] ((system .stable).trace (fresh [65] 0)
      [.put 0 [107] [118], .put 0 [107] [119]]) =
      some (LWWRegister.serialize
        ⟨[119], (VectorClock.empty.increment [65]).increment [65]⟩) := by
    decide +kernel
  obtain ⟨db', hput, hget, hcrdt⟩ :=
    (stale_put_iff hrun hlast hstored hstale 0).mpr (Or.inl (by decide))
  exact ⟨db, db', hrun, hput, hget, hcrdt⟩

/-- A removed value comes back when it is delivered again, although the tombstone
stored last has the later clock. -/
theorem removed_value_comes_back :
    ∃ db db', (system .stable).run (fresh [65] 0) [.put 0 [107] [118], .put 0 [107] []] = .ok db ∧
      History.last [107] ((system .stable).trace (fresh [65] 0)
          [.put 0 [107] [118], .put 0 [107] []]) =
        some (LWWRegister.serialize
          ⟨[], (VectorClock.empty.increment [65]).increment [65]⟩) ∧
      VectorClock.empty.increment [65] < (VectorClock.empty.increment [65]).increment [65] ∧
      db.get [107] = .ok none ∧
      db.putCrdt 0 [107] ⟨[118], VectorClock.empty.increment [65]⟩ = .ok db' ∧
      db'.get [107] = .ok (some [118]) :=
  ⟨_, _, rfl, by decide +kernel, by decide +kernel, by decide +kernel, rfl, by decide +kernel⟩

end ZenithDB

end Zenith
