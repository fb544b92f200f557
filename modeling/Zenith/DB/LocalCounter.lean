import Zenith.DB.History

/-!
# Zenith — the local counter

A local write counts the node's own component of `local_clock_` up, and a write from a peer
raises it to whatever the incoming register holds for the node. Nothing bounds the second,
and the first is modulo `2 ^ 64`: after a register with the largest counter was accepted,
the next local write starts again at 0.

`ownCount` follows the component without the modulus, from the actions alone. So the
condition for local writes to dominate can be read off the list of actions, without running
the database: at each local write there is `Room` for one more. While there is room, the
counter and the number agree (`Counts`); at the first write without room they part, and that
write does not dominate, which gives the other direction.

The database is opened over any directory. Its clock is empty then, whatever is in the
files, and nothing is assumed about them.

Main result: `local_puts_dominate_iff`. The local writes of a run all go above everything
accepted and written before exactly when this number stays below the largest counter
wherever a local write is made.
-/

namespace Zenith

open Bytes VectorClock

namespace ZenithDB

-- ---------------------------------------------------------------------------
-- The clock after a step
-- ---------------------------------------------------------------------------

/-- What a step makes of the local clock. -/
def clockAfter (db : ZenithDB) : Action → VectorClock
  | .put _ _ _ => db.localClock.increment db.nodeId
  | .putCrdt _ _ incoming => db.localClock.merge incoming.clock
  | .work _ => db.localClock
  | .otherNames _ => db.localClock

@[simp] theorem localClock_storeRecord (db : ZenithDB) (usage : Nat) (key raw : Bytes) :
    (db.storeRecord usage key raw).localClock = db.localClock := by
  unfold storeRecord
  split <;> rfl

@[simp] theorem nodeId_storeRecord (db : ZenithDB) (usage : Nat) (key raw : Bytes) :
    (db.storeRecord usage key raw).nodeId = db.nodeId := by
  unfold storeRecord
  split <;> rfl

/-- A local write counts its own component. -/
@[simp] theorem localClock_put (db : ZenithDB) (usage : Nat) (key value : Bytes) :
    (db.put usage key value).localClock = db.localClock.increment db.nodeId :=
  localClock_storeRecord _ _ _ _

/-- What a step does to clock and id. -/
theorem step_localClock {p : Platform} {db db' : ZenithDB} {a : Action}
    (h : (system p).step db a = .ok db') :
    db'.localClock = db.clockAfter a ∧ db'.nodeId = db.nodeId := by
  cases a with
  | put usage key value =>
    obtain rfl := Except.ok.inj h
    exact ⟨localClock_put .., nodeId_storeRecord ..⟩
  | putCrdt usage key incoming =>
    obtain ⟨existing, -, h⟩ := Except.bind_eq_ok_iff.mp h
    obtain rfl := Except.ok.inj h
    exact ⟨localClock_storeRecord .., nodeId_storeRecord ..⟩
  | work time =>
    have hsame := work_sameMem h
    exact ⟨hsame.localClock, hsame.nodeId⟩
  | otherNames n =>
    obtain rfl := Except.ok.inj h
    exact ⟨rfl, rfl⟩

-- ---------------------------------------------------------------------------
-- Counting
-- ---------------------------------------------------------------------------

/-- The largest number a counter can hold. -/
def maxCounter : Nat := 2 ^ 64 - 1

/-- How an action moves the node's own component, if nothing wraps. -/
def countStep (nodeId : NodeID) (count : Nat) : Action → Nat
  | .put _ _ _ => count + 1
  | .putCrdt _ _ incoming => max count (incoming.clock.get nodeId).toNat
  | .work _ => count
  | .otherNames _ => count

/-- The node's own component after the actions, from an empty clock and if nothing
wraps. -/
def ownCount (nodeId : NodeID) (as : List Action) : Nat := as.foldl (countStep nodeId) 0

/-- There is room for the increment of a local write. -/
def Room (count : Nat) : Action → Prop
  | .put _ _ _ => count < maxCounter
  | _ => True

/-- A local write goes strictly above the clock held before it. -/
def Dominates (db : ZenithDB) : Action → Prop
  | .put usage key value => db.localClock < (db.put usage key value).localClock
  | _ => True

/-- The database is the node's, and `count` is its own component. -/
structure Counts (nodeId : NodeID) (count : Nat) (db : ZenithDB) : Prop where
  node : db.nodeId = nodeId
  count : (db.localClock.get nodeId).toNat = count

variable {p : Platform} {nodeId : NodeID} {count : Nat} {db db' : ZenithDB} {a : Action}

/-- The larger counter, as a number. -/
theorem toNat_max (x y : Counter) : (max x y).toNat = max x.toNat y.toNat := by
  rcases le_total x y with h | h
  · rw [max_eq_right h, max_eq_right (UInt64.le_iff_toNat_le.mp h)]
  · rw [max_eq_left h, max_eq_left (UInt64.le_iff_toNat_le.mp h)]

/-- **Step lemma.** With room for its increment a step moves the component as
`countStep` does. -/
theorem Counts.step (h : Counts nodeId count db) (hroom : Room count a)
    (hstep : (system p).step db a = .ok db') : Counts nodeId (countStep nodeId count a) db' := by
  obtain ⟨hclock, hnode⟩ := step_localClock hstep
  refine ⟨hnode.trans h.node, ?_⟩
  rw [hclock]
  cases a with
  | put usage key value =>
    have hroom : count < 2 ^ 64 - 1 := hroom
    have hlt : (db.localClock.get db.nodeId).toNat + 1 < 2 ^ 64 := by
      rw [h.node, h.count]
      omega
    have hincrement := toNat_get_increment hlt
    rw [h.node, h.count] at hincrement
    show ((db.localClock.increment db.nodeId).get nodeId).toNat = count + 1
    rw [h.node, hincrement]
  | putCrdt usage key incoming =>
    show ((db.localClock.merge incoming.clock).get nodeId).toNat = _
    rw [get_merge, toNat_max, h.count]
    rfl
  | work time => exact h.count
  | otherNames n => exact h.count

/-- A local write dominates exactly when there is room for its increment: without
room the component wraps to 0. -/
theorem Counts.dominates_iff (h : Counts nodeId count db) : Dominates db a ↔ Room count a := by
  cases a with
  | put usage key value =>
    show db.localClock < (db.put usage key value).localClock ↔ count < 2 ^ 64 - 1
    rw [localClock_put, h.node]
    constructor
    · intro hlt
      by_contra hnot
      have hbound := (db.localClock.get nodeId).toNat_lt
      rw [h.count] at hbound
      have hmax : count = 2 ^ 64 - 1 := by omega
      -- at the largest counter the increment is 0, which is below what was there
      have hwrap : ((db.localClock.increment nodeId).get nodeId).toNat = 0 := by
        rw [get_increment_self, UInt64.toNat_add, h.count, hmax]
        rfl
      have hle := UInt64.le_iff_toNat_le.mp (hlt.le nodeId)
      rw [h.count, hwrap] at hle
      omega
    -- below it nothing wraps
    · intro hroom
      apply lt_increment
      rw [h.count]
      omega
  | putCrdt usage key incoming => exact Iff.rfl
  | work time => exact Iff.rfl
  | otherNames n => exact Iff.rfl

/-- With room for its increment a step only raises the local clock. -/
theorem Counts.le_step (h : Counts nodeId count db) (hroom : Room count a)
    (hstep : (system p).step db a = .ok db') : db.localClock ≤ db'.localClock := by
  rw [(step_localClock hstep).1]
  cases a with
  | put usage key value =>
    have hlt : db.localClock < (db.put usage key value).localClock := h.dominates_iff.mpr hroom
    rw [localClock_put] at hlt
    exact hlt.le
  | putCrdt usage key incoming => exact le_merge_left _ _
  | work time => exact le_rfl
  | otherNames n => exact le_rfl

-- ---------------------------------------------------------------------------
-- Runs
-- ---------------------------------------------------------------------------

/-- Every local write of the list has room for its increment. -/
def RoomAlong (nodeId : NodeID) (as : List Action) : Prop :=
  ∀ before a after, as = before ++ a :: after → Room (ownCount nodeId before) a

/-- One more action. -/
theorem ownCount_append (nodeId : NodeID) (before : List Action) (a : Action) :
    ownCount nodeId (before ++ [a]) = countStep nodeId (ownCount nodeId before) a := by
  rw [ownCount, List.foldl_append]
  rfl

/-- Fewer writes need less room. -/
theorem RoomAlong.append_left {as bs : List Action} (h : RoomAlong nodeId (as ++ bs)) :
    RoomAlong nodeId as := fun before a after has =>
  h before a (after ++ bs) (by rw [has, List.append_assoc, List.cons_append])

/-- **Run lemma.** By induction on the run from its end: while there is room, the
component is what `ownCount` says. -/
theorem Counts.run (h : Counts nodeId 0 db) {as : List Action} (hroom : RoomAlong nodeId as)
    (hrun : (system p).run db as = .ok db') : Counts nodeId (ownCount nodeId as) db' := by
  induction as using List.reverseRecOn generalizing db' with
  | nil =>
    obtain rfl := Except.ok.inj hrun
    exact h
  | append_singleton as a ih =>
    obtain ⟨mid, hmid, hlast⟩ := System.run_append_eq_ok hrun
    obtain ⟨next, hstep, hnil⟩ := System.run_cons_eq_ok hlast
    obtain rfl := Except.ok.inj hnil
    rw [ownCount_append]
    exact (ih hroom.append_left hmid).step (hroom as a [] rfl) hstep

/-- Room for a list is room for its front and for its last action. -/
theorem roomAlong_append_singleton {as : List Action} :
    RoomAlong nodeId (as ++ [a]) ↔ RoomAlong nodeId as ∧ Room (ownCount nodeId as) a := by
  refine ⟨fun h => ⟨h.append_left, h as a [] rfl⟩, fun h before b after has => ?_⟩
  rcases List.eq_nil_or_concat after with rfl | ⟨rest, last, rfl⟩
  · obtain ⟨rfl, hlast⟩ := List.append_inj' has rfl
    obtain rfl := List.singleton_inj.mp hlast
    exact h.2
  · rw [List.concat_eq_append, ← List.cons_append, ← List.append_assoc] at has
    exact h.1 before b rest (List.append_inj_left' has rfl)

/-- The other direction: if every local write of a run dominates, there was room
for all of them. -/
theorem Counts.roomAlong (h : Counts nodeId 0 db) {as : List Action}
    (hrun : (system p).run db as = .ok db')
    (hdominates : (system p).Along (fun _ t a => Dominates t a) [] db as) :
    RoomAlong nodeId as := by
  induction as using List.reverseRecOn generalizing db' with
  | nil =>
    intro before a after has
    exact absurd has (by simp)
  | append_singleton as a ih =>
    obtain ⟨mid, hmid, -⟩ := System.run_append_eq_ok hrun
    have hroom := ih hmid hdominates.append_left
    have hlast := (h.run hroom hmid).dominates_iff.mp (hdominates.at_step hmid)
    exact roomAlong_append_singleton.mpr ⟨hroom, hlast⟩

/-- While there is room, the clock of an accepted register stays below the local
clock. -/
theorem Counts.accepted_le (h : Counts nodeId 0 db) {as : List Action}
    (hroom : RoomAlong nodeId as) (hrun : (system p).run db as = .ok db') {usage : Nat}
    {key : Bytes} {incoming : LWWRegister} (hmem : Action.putCrdt usage key incoming ∈ as) :
    incoming.clock ≤ db'.localClock := by
  induction as using List.reverseRecOn generalizing db' with
  | nil => exact absurd hmem List.not_mem_nil
  | append_singleton as a ih =>
    obtain ⟨mid, hmid, hlast⟩ := System.run_append_eq_ok hrun
    obtain ⟨next, hstep, hnil⟩ := System.run_cons_eq_ok hlast
    obtain rfl := Except.ok.inj hnil
    rw [List.mem_append, List.mem_singleton] at hmem
    rcases hmem with hmem | rfl
    · have hle := (h.run hroom.append_left hmid).le_step (hroom as a [] rfl) hstep
      exact (ih hroom.append_left hmid hmem).trans hle
    · rw [(step_localClock hstep).1]
      exact le_merge_right _ _

/-- The constructor starts with an empty clock. -/
theorem counts_openDB {disk : Disk} {counter : Nat} (hopen : openDB p nodeId disk counter = .ok db) :
    Counts nodeId 0 db := by
  unfold openDB at hopen
  obtain ⟨⟨layout, nextAddr⟩, -, h⟩ := Except.bind_eq_ok_iff.mp hopen
  obtain rfl := Except.ok.inj h
  exact ⟨rfl, rfl⟩

/-- **Local writes dominate** what the database held and accepted before, in a run of any
writes, registers and worker steps, exactly when the node's own component, counted without
the modulus, is below the largest counter at each of them. The condition is about the
actions before each write; it mentions neither the database nor its clock.

The database is opened over any directory (`hopen`), and the run is any that does not stop
(`hrun`). An opening starts with an empty clock, whatever the directory holds; this is why
the count begins at zero. -/
theorem local_puts_dominate_iff {disk : Disk} {counter : Nat} {as : List Action}
    (hopen : openDB p nodeId disk counter = .ok db) (hrun : (system p).run db as = .ok db') :
    (∀ before usage key value after t, as = before ++ .put usage key value :: after →
        (system p).run db before = .ok t →
        t.localClock < (t.localRegister value).clock ∧
          ∀ usage' key' incoming, Action.putCrdt usage' key' incoming ∈ before →
            incoming.clock < (t.localRegister value).clock) ↔
      ∀ before usage key value after, as = before ++ .put usage key value :: after →
        ownCount nodeId before < maxCounter := by
  have h := counts_openDB hopen
  -- only puts need room
  have halong : RoomAlong nodeId as ↔ ∀ before usage key value after,
      as = before ++ .put usage key value :: after → ownCount nodeId before < maxCounter := by
    refine ⟨fun hroom before usage key value after has => hroom before _ after has, ?_⟩
    intro hroom before a after has
    cases a with
    | put usage key value => exact hroom before usage key value after has
    | _ => trivial
  rw [← halong]
  constructor
  · -- a counter that wraps would not dominate
    intro hdominates
    apply h.roomAlong hrun
    rw [System.along_iff]
    intro before a after t has hbefore
    cases a with
    | put usage key value =>
      show t.localClock < (t.put usage key value).localClock
      rw [localClock_put]
      exact (hdominates before usage key value after t has hbefore).1
    | _ => trivial
  · -- what was accepted before is at most the clock that the put raises
    intro hroom before usage key value after t has hbefore
    subst has
    have ht := h.run hroom.append_left hbefore
    have hlt : t.localClock < (t.put usage key value).localClock :=
      ht.dominates_iff.mpr (hroom before _ after rfl)
    rw [localClock_put] at hlt
    refine ⟨hlt, fun usage' key' incoming hmem => ?_⟩
    exact lt_of_le_of_lt (h.accepted_le hroom.append_left hbefore hmem) hlt

/-- A register of a peer, two local writes and a worker step, with room for both. -/
theorem local_puts_dominate_three :
    let peer : LWWRegister := ⟨[118], ⟨SortedMap.empty.insert [110] 7⟩⟩
    let as : List Action := [.put 0 [107] [1], .putCrdt 0 [107] peer, .work id, .put 0 [107] [2]]
    ∃ t, (system .stable).run (fresh [110] 0) (as.take 3) = .ok t ∧
      t.localClock < (t.localRegister [2]).clock ∧ peer.clock < (t.localRegister [2]).clock := by
  intro peer as
  obtain ⟨db', hrun⟩ := Except.exists_eq_ok
    (x := (system .stable).run (fresh [110] 0) as) (by decide +kernel)
  obtain ⟨t, ht⟩ := Except.exists_eq_ok
    (x := (system .stable).run (fresh [110] 0) (as.take 3)) (by decide +kernel)
  have hiff := local_puts_dominate_iff (openDB_empty .stable [110] 0) hrun
  have hall := hiff.mpr (by
    intro before usage key value after has
    -- the two writes of the list
    match before, has with
    | [], _ => decide
    | [_, _, _], has =>
      obtain ⟨rfl, -⟩ := List.cons.inj has
      obtain ⟨rfl, -⟩ := List.cons.inj (List.cons.inj has).2
      obtain ⟨rfl, -⟩ := List.cons.inj (List.cons.inj (List.cons.inj has).2).2
      decide
    | [_], has => exact absurd has (by simp [as])
    | [_, _], has => exact absurd has (by simp [as])
    | _ :: _ :: _ :: _ :: _, has => exact absurd (congrArg List.length has) (by simp [as]))
  obtain ⟨hlt, hpeer⟩ := hall (as.take 3) 0 [107] [2] [] t rfl ht
  exact ⟨t, ht, hlt, hpeer 0 [107] peer (by simp [as])⟩

/-- A register with the largest counter of the node makes its next write older than
the value it replaces. -/
theorem accepted_counter_wraps :
    let peer : LWWRegister := ⟨[118], ⟨SortedMap.empty.insert [110] 18446744073709551615⟩⟩
    ∃ t, (system .stable).run (fresh [110] 0) [.putCrdt 0 [107] peer] = .ok t ∧
      ¬ t.localClock < (t.localRegister [119]).clock ∧
      (t.localRegister [119]).clock < t.localClock ∧
      t.getCrdt [107] = .ok (some peer) := by
  decide +kernel

end ZenithDB

end Zenith
