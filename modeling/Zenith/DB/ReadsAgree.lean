import Zenith.DB.Preserve
import Zenith.DB.Versions

/-!
# Zenith — point reads and range reads

`get_crdt` returns the version of the newest layer, `scan_crdt` the merge of the versions of
all layers. They agree while every version absorbs the older ones: then the newest is the
merge of all.

Local writes keep it so, because the local clock is above all that is stored. A register
from a peer does when it is merged into the live register that is read, for the result is
above both. But behind a tombstone nothing is read. The incoming register is stored as it
is, in front of the tombstone, and if the tombstone does not precede it, the point read
shows the register and the scan shows the tombstone's result, which is to leave the key out.

`Orderly` asks of a step that nothing overflows and that a register from a peer takes the
place of the frozen versions of its key (`Displaces`). The versions in the active memtable
need no condition, since a store there overwrites. `Ordered` is the invariant that then
holds in every state, and two reads from an ordered state agree by what both say about the
versions of the key.

The condition is about the state before the step, and `tombstone_splits_reads` is a run that
breaks it.

Main result: `reads_agree`.
-/

namespace Zenith

open Bytes VectorClock

namespace ZenithDB

variable {ids : List NodeID} {db : ZenithDB} {p : Platform}

/-- Both reads return the same for a key in range, and the scan returns it once. Both have
to return. -/
def ReadsAgree (p : Platform) (db : ZenithDB) (key start stop : Bytes) : Prop :=
  ∃ out found, db.scanCrdt p start stop = .ok out ∧ db.getCrdt key = .ok found ∧
    (out.map Prod.fst).Nodup ∧
    (∀ reg, (key, reg) ∈ out → ∃ v, found = some v ∧ v.Same reg) ∧
    ∀ v, found = some v → ∃ reg, (key, reg) ∈ out ∧ v.Same reg

/-- Nothing overflows, and a register from a peer takes the place of the frozen
versions of its key. -/
def Orderly (ids : List NodeID) (db : ZenithDB) : Action → Prop
  | .put _ key value => Fits ids key value ∧ (db.localClock.get db.nodeId).toNat + 1 < 2 ^ 64
  | .putCrdt _ key incoming =>
    incoming.clock.Within ids ∧ Fits ids key incoming.value ∧
      ∀ existing, db.getCrdt key = .ok existing →
        ∀ u, Frozen db key u → Displaces existing incoming u
  | .work _ => True
  | .otherNames _ => True

/-- The worker moves versions down and merges them, and leaves their order as it is. -/
theorem Ordered.work (h : Ordered ids db) (p : Platform) (time : Nat → Nat) :
    (db.work p time).Post (Ordered ids) WriteFailed := by
  have hQ : Mergeable (Kept ids (db.immut.map (·.mt))) :=
    mergeable_kept (List.pairwise_cons.mp h.chain).2
  apply (h.settled.work hQ p time).imp
  intro db' hwork hsettled
  have hsame := work_sameMem hwork
  obtain ⟨hactive, hfrozen⟩ := List.cons.inj hsame.memtables
  rw [← hfrozen] at hsettled
  refine ⟨?_, ?_, ?_, hsettled, ?_, ?_⟩
  · rw [hsame.nodeId]
    exact h.node
  · rw [hsame.localClock]
    exact h.clock
  · rw [hactive]
    exact h.active
  · rw [hsame.memtables]
    exact h.chain
  · rw [hsame.memtables, hsame.localClock]
    exact h.below

/-- **One step** keeps the versions in order or stops at a failed write. -/
theorem Ordered.step (h : Ordered ids db) (p : Platform) {a : Action} (ha : Orderly ids db a) :
    (ZenithDB.step p db a).Post (Ordered ids) WriteFailed := by
  -- a write goes in front of what it displaces; the worker keeps the order
  cases a with
  | put usage key value => exact h.put usage ha.1 ha.2
  | putCrdt usage key incoming =>
    obtain ⟨db', existing, -, hput, hordered⟩ := h.putCrdt usage ha.1 ha.2.1 ha.2.2
    show (db.putCrdt usage key incoming).Post _ _
    rw [hput]
    exact hordered
  | work time => exact h.work p time
  | otherNames n =>
    exact ⟨h.node, h.clock, h.active, ⟨h.settled.frozen, h.settled.layout, h.settled.worker,
      h.settled.files⟩, h.chain, h.below⟩

/-- In an ordered state both reads give the merge of all versions of the key. -/
theorem Ordered.readsAgree (h : Ordered ids db) (p : Platform) {key start stop : Bytes}
    (hstart : start ≤ key) (hstop : key ≤ stop) : ReadsAgree p db key start stop := by
  obtain ⟨out, hscan, hascending, hout, hfound⟩ := h.scan p start stop
  obtain ⟨found, hget⟩ : ∃ found, db.getCrdt key = .ok found := by
    rcases h.point key with ⟨v, -, hget⟩ | ⟨-, hget⟩ <;> exact ⟨_, hget⟩
  refine ⟨out, found, hscan, hget, hascending.imp fun hlt => hlt.ne, ?_, ?_⟩
  · intro reg hreg
    obtain ⟨-, -, v, hv, hsame⟩ := hout key reg hreg
    rw [hget] at hv
    exact ⟨v, Except.ok.inj hv, hsame⟩
  · rintro v rfl
    exact hfound key v hstart hstop hget

/-- **Point reads and range reads agree** in every state that a run from an empty directory
reaches by orderly steps, however a sort orders equal keys.

Hypotheses:
* `hnode` — the node's own id is one of `ids`, over which all clocks are;
* `hrun` — the run starts in an empty directory;
* `horderly` — on the state before each step: what is put fits and does not wrap the
  counter, and a register that comes from a peer displaces the frozen versions of its key;
* `hstart`, `hstop` — the range has the key in it.

The platform `q` may sort in another way than the platform of the run. -/
theorem reads_agree {nodeId : NodeID} {counter : Nat} {as : List Action} (hnode : nodeId ∈ ids)
    (hrun : (system p).run (fresh nodeId counter) as = .ok db)
    (horderly : (system p).Along (fun _ => Orderly ids) [] (fresh nodeId counter) as) (q : Platform)
    {key start stop : Bytes} (hstart : start ≤ key) (hstop : key ≤ stop) :
    ReadsAgree q db key start stop := by
  have hordered := System.run_invariant (P := fun _ => Ordered ids)
    (fun tr d a d' h hcond hstep => (h.step p hcond).result hstep)
    (ordered_fresh hnode counter) horderly hrun
  exact hordered.readsAgree q hstart hstop

-- ---------------------------------------------------------------------------
-- Checking runs
-- ---------------------------------------------------------------------------

instance : ∀ (existing : Option LWWRegister) (incoming u : LWWRegister),
    Decidable (Displaces existing incoming u)
  | none, incoming, u => inferInstanceAs (Decidable (incoming.Absorbs u))
  | some v, incoming, u => inferInstanceAs (Decidable (v.Same u → incoming.clock ≤ v.clock →
      v.clock ≤ incoming.clock → incoming.value = v.value))

/-- Frozen versions are found by going through the frozen memtables. -/
instance {P : LWWRegister → Prop} [DecidablePred P] (db : ZenithDB) (key : Bytes) :
    Decidable (∀ u, Frozen db key u → P u) :=
  decidable_of_iff (∀ node ∈ db.immut, ∀ e ∈ node.mt.sortedEntries, e.1 = key →
    ∀ u, LWWRegister.deserialize e.2 = .ok u → P u) (by
      constructor
      · rintro h u ⟨node, hnode, raw, hraw, hu⟩
        exact h node hnode _ hraw rfl u hu
      · rintro h node hnode ⟨k, raw⟩ hraw rfl u hu
        exact h u ⟨node, hnode, raw, hraw, hu⟩)

instance (ids : List NodeID) (db : ZenithDB) : ∀ a, Decidable (Orderly ids db a)
  | .put _ key value => inferInstanceAs (Decidable (Fits ids key value ∧ _ < _))
  | .putCrdt _ key incoming => inferInstanceAs (Decidable (incoming.clock.Within ids ∧
      Fits ids key incoming.value ∧ ∀ existing, db.getCrdt key = .ok existing →
        ∀ u, Frozen db key u → Displaces existing incoming u))
  | .work _ => isTrue trivial
  | .otherNames _ => isTrue trivial

/-- A tombstone that is frozen, and a later register from a peer. -/
theorem reads_agree_after_tombstone :
    ∃ db, (system .stable).run (fresh [65] 0) [.put 200000 [107] [], .putCrdt 0 [107]
        ⟨[118], (VectorClock.empty.increment [65]).increment [66]⟩, .work fun _ => 5] = .ok db ∧
      ReadsAgree .stable db [107] [] [255] := by
  obtain ⟨db, hrun⟩ := Except.exists_eq_ok (x := (system .stable).run (fresh [65] 0)
    [.put 200000 [107] [], .putCrdt 0 [107]
      ⟨[118], (VectorClock.empty.increment [65]).increment [66]⟩, .work fun _ => 5])
    (by decide +kernel)
  have hnode : ([65] : NodeID) ∈ [[65], [66]] := by decide
  exact ⟨db, hrun, reads_agree hnode hrun (by decide +kernel) .stable (by decide) (by decide)⟩

/-- The same tombstone, and a register that is older than it: the point read returns
the register, the range read does not. -/
theorem tombstone_splits_reads :
    ∃ db, (system .stable).run (fresh [65] 0) [.put 200000 [107] [], .putCrdt 0 [107]
        ⟨[118], VectorClock.empty⟩] = .ok db ∧
      db.getCrdt [107] = .ok (some ⟨[118], VectorClock.empty⟩) ∧
      db.scanCrdt .stable [] [255] = .ok [] := by
  decide +kernel

end ZenithDB

end Zenith
