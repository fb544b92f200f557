import Zenith.Cluster.Provenance
import Zenith.DB.Outages

/-!
# Zenith — outages in a cluster

A node of a cluster can be killed in the middle of a step and started again in its
directory. The process that is started has no peers until they are added, and a clock that
starts again; what was in flight stays in flight. So clocks come back that were there
before, and what two nodes hold of a key may depend on the order in which they heard of it.

What outages cannot do is make up a register: what is held, read, scanned or in flight was
still merged from local writes of the same key, those included that were cut off.

The invariant of a running database is not enough for this, because a kill makes rows of the
directory come back. `Robust` is about the directory as well: whatever a process leaves
there at any byte, opening it gives a database whose registers have the property. `Enduring`
asks it of every node. A kill is one step of the cluster system like any other, so the
number of kills, and the steps at which they happen, are arbitrary.

What is asked of a step (`Survives`) is asked of a step that is cut off, too: what it would
have stored fits and has no framing byte, and the names of the tables it was about to write
are not in use. A restarted process counts names from the start again, so names have to be
compared with the files of the directory.

Main result: `registers_survive_outages`.
-/

namespace Zenith

open Bytes VectorClock

namespace Cluster

-- ---------------------------------------------------------------------------
-- Steps
-- ---------------------------------------------------------------------------

/-- The step of a database in which a step of the cluster consists, and the node of it. -/
def dbStep (c : Cluster) : Action → Option (NodeID × ZenithDB.Action)
  | .put id usage key value => some (id, .put usage key value)
  | .deliver i usage =>
    match c.queue[i]? with
    | none => none
    | some msg =>
      if c.partitioned.get? msg.receiver = some true then none
      else
        match LWWRegister.deserialize msg.payload with
        | .error _ => none
        | .ok incoming => some (msg.receiver, .putCrdt usage msg.key incoming)
  | .work id time => some (id, .work time)
  | .otherNames id n => some (id, .otherNames n)
  | .triggerAntiEntropy _ _ => none
  | .lose _ => none
  | .addPeer _ _ => none
  | .partition _ _ => none

/-- A step, or the end of a node's process in the middle of one and the start of another
process in its directory. -/
inductive OutageAction
  | act (a : Action)
  | kill (a : Action) (done : Nat) (cut : Option Nat) (counter : Nat)

/-- The node that opens the directory of a process that was killed. Peers are in memory only
and are gone; the id is given to the program again. -/
def restart (p : Platform) (node : Node) (a : ZenithDB.Action) (done : Nat) (cut : Option Nat)
    (counter : Nat) : Except Fault Node := do
  let db ← ZenithDB.openDB p node.nodeId
    (cutOff (ZenithDB.diskOps node.db a) done cut node.db.disk) counter
  return ⟨node.nodeId, db, []⟩

/-- A step of the cluster with outages. A kill in a step that is not one of a database
leaves the cluster, as nothing is written there. -/
def outageStep (p : Platform) (c : Cluster) : OutageAction → Except Fault Cluster
  | .act a => c.step p a
  | .kill a done cut counter =>
    match c.dbStep a with
    | none => .ok c
    | some (id, a) => c.atNode id fun node => do
      let node ← restart p node a done cut counter
      return (node, [])

/-- The local write that a step performs or is cut off in. -/
def outageWrites (c : Cluster) : OutageAction → List Write
  | .act a => c.writes a
  | .kill (.put id _ key value) _ _ _ =>
    match c.nodes.get? id with
    | none => []
    | some node => [⟨id, key, node.db.localRegister value, []⟩]
  | .kill _ _ _ _ => []

/-- Clusters with outages as a step system; the trace of a run lists its local writes. -/
def outageSystem (p : Platform) : System Cluster OutageAction Write Fault :=
  ⟨outageStep p, outageWrites⟩

/-- A local write fits. -/
def Fitting (ids : List NodeID) : ZenithDB.Action → Prop
  | .put _ key value => ZenithDB.Fits ids key value
  | .putCrdt _ _ _ => True
  | .work _ => True
  | .otherNames _ => True

/-- Moreover no record has a framing byte, and new tables get names that are not in use.
Both are about the state before the step, at the node that the step is at. -/
def Withstands (ids : List NodeID) (c : Cluster) (a : Action) : Prop :=
  ∀ s ∈ c.dbStep a, Fitting ids s.2 ∧ ∀ node ∈ c.nodes.get? s.1,
    (∀ r ∈ ZenithDB.stored node.db s.2, Wal.Clean r) ∧ ZenithDB.Unused node.db s.2

/-- So it is with a step that is cut off. -/
def Survives (ids : List NodeID) (c : Cluster) : OutageAction → Prop
  | .act a => c.Withstands ids a
  | .kill a _ _ _ => c.Withstands ids a

instance (ids : List NodeID) : ∀ a, Decidable (Fitting ids a)
  | .put _ key value => inferInstanceAs (Decidable (ZenithDB.Fits ids key value))
  | .putCrdt _ _ _ => isTrue trivial
  | .work _ => isTrue trivial
  | .otherNames _ => isTrue trivial

instance (ids : List NodeID) (c : Cluster) (a : Action) : Decidable (c.Withstands ids a) :=
  inferInstanceAs (Decidable (∀ s ∈ c.dbStep a, Fitting ids s.2 ∧ ∀ node ∈ c.nodes.get? s.1,
    (∀ r ∈ ZenithDB.stored node.db s.2, Wal.Clean r) ∧ ZenithDB.Unused node.db s.2))

instance (ids : List NodeID) (c : Cluster) : ∀ a, Decidable (c.Survives ids a)
  | .act a => inferInstanceAs (Decidable (c.Withstands ids a))
  | .kill a _ _ _ => inferInstanceAs (Decidable (c.Withstands ids a))

-- ---------------------------------------------------------------------------
-- The invariant
-- ---------------------------------------------------------------------------

variable {ids : List NodeID} {R : Bytes → LWWRegister → Prop} {c c' : Cluster} {p : Platform}

/-- All nodes are over directories that can be opened again, and all registers of the
cluster have the property. -/
structure Enduring (ids : List NodeID) (R : Bytes → LWWRegister → Prop) (c : Cluster) : Prop where
  nodes : ∀ id node, c.nodes.get? id = some node → node.nodeId ∈ ids ∧ ZenithDB.Robust ids R node.db
  queue : ∀ msg ∈ c.queue, ZenithDB.Marked ids R msg.key msg.payload

theorem Enduring.mono {R' : Bytes → LWWRegister → Prop} (hle : ∀ k r, R k r → R' k r)
    (h : c.Enduring ids R) : c.Enduring ids R' where
  nodes id node hnode := ⟨(h.nodes id node hnode).1, (h.nodes id node hnode).2.mono hle⟩
  queue msg hmsg := (h.queue msg hmsg).mono hle

theorem enduring_fresh (h : c.Fresh) : c.Enduring c.nodes.keys R where
  nodes id node hnode := by
    obtain ⟨counter, peers, heq⟩ := h.nodes _ (SortedMap.get?_eq_some_iff.mp hnode)
    obtain rfl : node = Node.fresh id counter peers := heq
    have hid : id ∈ c.nodes.keys := SortedMap.mem_keys_iff.mpr ⟨_, hnode⟩
    exact ⟨hid, ZenithDB.robust_fresh hid counter⟩
  queue msg hmsg := by
    rw [h.queue] at hmsg
    exact absurd hmsg List.not_mem_nil

/-- What a method of one node leaves and sends. -/
def Leaves (ids : List NodeID) (R : Bytes → LWWRegister → Prop) (r : Node × List Message) : Prop :=
  (r.1.nodeId ∈ ids ∧ ZenithDB.Robust ids R r.1.db) ∧
    ∀ msg ∈ r.2, ZenithDB.Marked ids R msg.key msg.payload

theorem Enduring.update (h : c.Enduring ids R) {id : NodeID} {r : Node × List Message}
    (hr : Leaves ids R r) :
    ({ c with nodes := c.nodes.insert id r.1, queue := c.queue ++ r.2 } : Cluster).Enduring
      ids R where
  nodes i n hn := by
    rw [SortedMap.get?_insert] at hn
    by_cases hi : i = id
    · rw [if_pos hi] at hn
      rw [← Option.some.inj hn]
      exact hr.1
    · rw [if_neg hi] at hn
      exact h.nodes i n hn
  queue msg hmsg := (List.mem_append.mp hmsg).elim (h.queue msg) (hr.2 msg)

theorem Enduring.atNode (h : c.Enduring ids R) {id : NodeID}
    {act : Node → Except Fault (Node × List Message)}
    (hact : ∀ node, c.nodes.get? id = some node → (act node).Post (Leaves ids R) WriteFailed) :
    (c.atNode id act).Post (Enduring ids R) WriteFailed := by
  unfold Cluster.atNode
  cases hnode : c.nodes.get? id with
  | none => exact h
  | some node =>
    apply Except.Post.bind (hact node hnode)
    exact fun r hr => h.update hr

/-- The step of a database that a step of the cluster consists in is a lawful one. For a
delivery this takes that the message in flight has the property. -/
theorem Enduring.lawful (h : c.Enduring ids R) {a : Action} (ha : c.Withstands ids a)
    (hput : ∀ id usage key value, a = .put id usage key value →
      ∀ node, c.nodes.get? id = some node → R key (node.db.localRegister value))
    {id : NodeID} {a' : ZenithDB.Action} (hstep : c.dbStep a = some (id, a')) {node : Node}
    (hnode : c.nodes.get? id = some node) : ZenithDB.Lawful ids R node.db a' := by
  obtain ⟨hfits, hnodes⟩ := ha (id, a') hstep
  obtain ⟨hclean, hunused⟩ := hnodes node hnode
  have hrobust := (h.nodes id node hnode).2
  refine ⟨?_, hclean, hunused⟩
  -- only a put, a delivery and the steps of the worker reach a database
  cases a with
  | put id usage key value =>
    obtain ⟨rfl, rfl⟩ := Prod.mk.inj (Option.some.inj hstep)
    exact ⟨hrobust.clock.increment hrobust.node, hfits, hput _ usage key value rfl node hnode⟩
  | deliver i usage =>
    unfold Cluster.dbStep at hstep
    dsimp only at hstep
    split at hstep
    · exact absurd hstep (by simp)
    next msg hmsg =>
    split at hstep
    · exact absurd hstep (by simp)
    split at hstep
    · exact absurd hstep (by simp)
    next incoming hread =>
    obtain ⟨rfl, rfl⟩ := Prod.mk.inj (Option.some.inj hstep)
    exact (h.queue msg (List.mem_of_getElem? hmsg)).proper hread
  | work id time =>
    obtain ⟨rfl, rfl⟩ := Prod.mk.inj (Option.some.inj hstep)
    trivial
  | otherNames id n =>
    obtain ⟨rfl, rfl⟩ := Prod.mk.inj (Option.some.inj hstep)
    trivial
  | triggerAntiEntropy id target => exact absurd hstep (by simp [Cluster.dbStep])
  | lose i => exact absurd hstep (by simp [Cluster.dbStep])
  | addPeer id peer => exact absurd hstep (by simp [Cluster.dbStep])
  | partition id isPartitioned => exact absurd hstep (by simp [Cluster.dbStep])

-- ---------------------------------------------------------------------------
-- One step
-- ---------------------------------------------------------------------------

/-- A local write sends what it reads back. -/
theorem put_leaves (hR : KeptByMerge R) {node : Node}
    (h : node.nodeId ∈ ids ∧ ZenithDB.Robust ids R node.db) {usage : Nat} {key value : Bytes}
    (ha : ZenithDB.Lawful ids R node.db (.put usage key value)) :
    (node.put usage key value).Post (Leaves ids R) WriteFailed := by
  have hput : ZenithDB.Robust ids R (node.db.put usage key value) := h.2.step hR .stable ha
  obtain ⟨found, hget, hfound⟩ := hput.memory.readProper hR key
  have hget : (node.db.put usage key value).getCrdt key = .ok found := hget
  unfold Node.put
  dsimp only
  rw [hget, Except.ok_bind]
  cases found with
  | none => exact ⟨⟨h.1, hput⟩, fun msg hmsg => absurd hmsg List.not_mem_nil⟩
  | some crdt =>
    refine ⟨⟨h.1, hput⟩, fun msg hmsg => ?_⟩
    obtain ⟨peer, -, rfl⟩ := List.mem_map.mp hmsg
    exact ⟨crdt, rfl, hfound crdt rfl⟩

/-- A message is merged into the database. -/
theorem onMessage_leaves (hR : KeptByMerge R) {node : Node}
    (h : node.nodeId ∈ ids ∧ ZenithDB.Robust ids R node.db) {usage : Nat} {msg : Message}
    {incoming : LWWRegister} (hread : LWWRegister.deserialize msg.payload = .ok incoming)
    (ha : ZenithDB.Lawful ids R node.db (.putCrdt usage msg.key incoming)) :
    (node.onMessage usage msg).Post
      (fun node' => node'.nodeId ∈ ids ∧ ZenithDB.Robust ids R node'.db) WriteFailed := by
  have hput : (node.db.putCrdt usage msg.key incoming).Post (ZenithDB.Robust ids R) WriteFailed :=
    h.2.step hR .stable ha
  unfold Node.onMessage
  cases msg.type <;>
  · simp only [hread, Except.ok_bind]
    exact hput.bind fun db hdb => ⟨h.1, hdb⟩

theorem Enduring.deliverMessage (hR : KeptByMerge R) (h : c.Enduring ids R) {usage : Nat}
    {msg : Message} {incoming : LWWRegister}
    (hread : LWWRegister.deserialize msg.payload = .ok incoming)
    (ha : ¬ c.partitioned.get? msg.receiver = some true →
      ∀ node, c.nodes.get? msg.receiver = some node →
        ZenithDB.Lawful ids R node.db (.putCrdt usage msg.key incoming)) :
    (c.deliverMessage usage msg).Post (Enduring ids R) WriteFailed := by
  unfold Cluster.deliverMessage
  cases hnode : c.nodes.get? msg.receiver with
  | none => exact h
  | some node =>
    by_cases hpartitioned : c.partitioned.get? msg.receiver = some true
    · simp only [if_pos hpartitioned]
      exact h
    · simp only [if_neg hpartitioned]
      refine (onMessage_leaves hR (h.nodes _ node hnode) hread
        (ha hpartitioned node hnode)).bind fun node' hnode' => ?_
      have hupdate : Enduring ids R { c with
          nodes := c.nodes.insert msg.receiver node', queue := c.queue ++ [] } :=
        h.update (r := (node', [])) ⟨hnode', fun m hm => absurd hm List.not_mem_nil⟩
      rwa [List.append_nil] at hupdate

/-- **One step** keeps the invariant, if it is a lawful one of the database it is at. -/
theorem Enduring.step (hR : KeptByMerge R) (h : c.Enduring ids R) (p : Platform) {a : Action}
    (ha : ∀ id a', c.dbStep a = some (id, a') → ∀ node, c.nodes.get? id = some node →
      ZenithDB.Lawful ids R node.db a') :
    (c.step p a).Post (Enduring ids R) WriteFailed := by
  have hnothing : ∀ msg ∈ ([] : List Message), ZenithDB.Marked ids R msg.key msg.payload :=
    fun msg hmsg => absurd hmsg List.not_mem_nil
  -- each action keeps the invariant or ends in a failed write of its database
  cases a with
  | put id usage key value =>
    exact h.atNode fun node hnode => put_leaves hR (h.nodes id node hnode) (ha id _ rfl node hnode)
  | triggerAntiEntropy id target =>
    refine h.atNode fun node hnode => ?_
    obtain ⟨rows, hscan, hrows⟩ := (h.nodes id node hnode).2.memory.scanProper hR p [] [0xFF]
    have hscan : node.db.scanCrdt p [] [0xFF] = .ok rows := hscan
    unfold Node.triggerAntiEntropy
    rw [hscan]
    refine ⟨h.nodes id node hnode, fun msg hmsg => ?_⟩
    obtain ⟨kv, hkv, rfl⟩ := List.mem_map.mp hmsg
    exact ⟨kv.2, rfl, hrows kv hkv⟩
  -- the payload can be read, so a delivery fails at most in its write
  | deliver i usage =>
    show (match c.queue[i]? with
      | none => .ok c
      | some msg => c.deliverMessage usage msg : Except Fault Cluster).Post _ _
    cases hmsg : c.queue[i]? with
    | none => exact h
    | some msg =>
      obtain ⟨incoming, hread, -⟩ := (h.queue msg (List.mem_of_getElem? hmsg)).read
      refine h.deliverMessage hR hread fun hpartitioned node hnode => ?_
      refine ha msg.receiver (.putCrdt usage msg.key incoming) ?_ node hnode
      simp only [Cluster.dbStep, hmsg, if_neg hpartitioned, hread]
  | lose i => exact ⟨h.nodes, fun msg hmsg => h.queue msg (List.mem_of_mem_eraseIdx hmsg)⟩
  | addPeer id peer =>
    refine h.atNode fun node hnode => ?_
    have hsame : (node.addPeer peer).db = node.db ∧ (node.addPeer peer).nodeId = node.nodeId := by
      unfold Node.addPeer
      split <;> exact ⟨rfl, rfl⟩
    refine ⟨?_, hnothing⟩
    rw [hsame.1, hsame.2]
    exact h.nodes id node hnode
  | partition id isPartitioned => exact ⟨h.nodes, h.queue⟩
  | work id time =>
    refine h.atNode fun node hnode => ?_
    have hwork : (node.db.work p time).Post (ZenithDB.Robust ids R) WriteFailed :=
      (h.nodes id node hnode).2.step hR p (ha id _ rfl node hnode)
    exact hwork.bind fun db hdb => ⟨⟨(h.nodes id node hnode).1, hdb⟩, hnothing⟩
  | otherNames id n =>
    refine h.atNode fun node hnode => ?_
    have hcount : ZenithDB.Robust ids R { node.db with counter := node.db.counter + n } :=
      (h.nodes id node hnode).2.step hR p (ha id _ rfl node hnode)
    exact ⟨⟨(h.nodes id node hnode).1, hcount⟩, hnothing⟩

/-- **An outage** in the middle of such a step does, too. -/
theorem Enduring.kill (hR : KeptByMerge R) (h : c.Enduring ids R) (p : Platform) {a : Action}
    (ha : ∀ id a', c.dbStep a = some (id, a') → ∀ node, c.nodes.get? id = some node →
      ZenithDB.Lawful ids R node.db a') (done : Nat) (cut : Option Nat) (counter : Nat) :
    (outageStep p c (.kill a done cut counter)).Post (Enduring ids R) WriteFailed := by
  unfold Cluster.outageStep
  dsimp only
  cases hstep : c.dbStep a with
  | none => exact h
  | some s =>
    obtain ⟨id, a'⟩ := s
    refine h.atNode fun node hnode => ?_
    obtain ⟨hid, hrobust⟩ := h.nodes id node hnode
    obtain ⟨db', hopen, -, hrobust'⟩ := hrobust.crashed hR p (ha id a' hstep node hnode)
      (crashed_iff_cutOff.mpr ⟨done, cut, rfl⟩) hid counter
    unfold Cluster.restart
    simp only [hopen, Except.ok_bind, Except.pure_eq_ok]
    exact ⟨⟨hid, hrobust'⟩, fun msg hmsg => absurd hmsg List.not_mem_nil⟩

-- ---------------------------------------------------------------------------
-- Runs
-- ---------------------------------------------------------------------------

/-- The register of a write of the trace. -/
theorem sourced_of_write {tr more : List Write} {w : Write} (h : more = [w]) :
    Sourced (tr ++ more) w.key w.reg := by
  rw [h]
  exact ⟨[w], List.subset_append_right .., List.forall_mem_singleton.mpr rfl,
    mergedFrom_singleton w⟩

/-- **One step or outage.** The registers come from the writes so far and that of the step.
A write that was cut off is counted among them, whether or not its record reached the log. -/
theorem outage_sources {tr : List Write} (h : c.Enduring ids (Sourced tr)) (p : Platform)
    {a : OutageAction} (ha : c.Survives ids a) :
    (outageStep p c a).Post (Enduring ids (Sourced (tr ++ c.outageWrites a))) WriteFailed := by
  have hmono : c.Enduring ids (Sourced (tr ++ c.outageWrites a)) :=
    h.mono fun _ _ hr => hr.append (c.outageWrites a)
  cases a with
  | kill a done cut counter =>
    refine hmono.kill (keptByMerge_sourced _) p (fun id a' hstep node hnode => ?_) done cut counter
    refine hmono.lawful ha ?_ hstep hnode
    rintro id usage key value rfl node hnode
    refine sourced_of_write (w := ⟨id, key, node.db.localRegister value, []⟩) ?_
    simp only [Cluster.outageWrites, hnode]
  | act a =>
    -- whether it is listed depends on whether it succeeds
    have htrue : c.Enduring ids fun _ _ => True := h.mono fun _ _ _ => trivial
    have hany := htrue.step (fun _ _ _ _ _ => trivial) p fun id a' hstep node hnode =>
      htrue.lawful ha (fun _ _ _ _ _ _ _ => trivial) hstep hnode
    show (c.step p a).Post _ _
    cases hc : c.step p a with
    | error f => rwa [hc] at hany
    | ok c' =>
      refine (hmono.step (keptByMerge_sourced _) p fun id a' hstep node hnode => ?_).result hc
      refine hmono.lawful ha ?_ hstep hnode
      rintro id usage key value rfl node hnode
      have hput : c.atNode id (fun node => node.put usage key value) = .ok c' := hc
      unfold Cluster.atNode at hput
      rw [hnode] at hput
      obtain ⟨r, hr, -⟩ := Except.bind_eq_ok_iff.mp hput
      refine sourced_of_write (w := ⟨id, key, node.db.localRegister value, r.2⟩) ?_
      simp only [Cluster.outageWrites, Cluster.writes, hnode, hr]

/-- **Sources, across outages.** In a run from fresh nodes, processes are killed in the
middle of any steps and started again, any number of times, while messages are delivered in
any order, repeatedly or never. It stops at nothing but a failed write, each directory can
be opened each time, and whatever is then in memory, in the open tables or in flight, and
all that point reads and scans return at any node, was merged from local writes of its key.

Hypotheses:
* `hfresh` — each node starts over an empty directory, with nothing in flight;
* `hsurvives` — each step, whether or not it is cut off, writes what fits its length fields,
  in records without framing bytes, and gives its new files names that are not in use. -/
theorem registers_survive_outages {start : Cluster} {as : List OutageAction} (hfresh : start.Fresh)
    (hsurvives : (outageSystem p).Along (fun _ => Survives start.nodes.keys) [] start as) :
    ((outageSystem p).run start as).Post
      (fun c =>
        (∀ msg ∈ c.queue, ∃ reg, LWWRegister.deserialize msg.payload = .ok reg ∧
          Sourced ((outageSystem p).trace start as) msg.key reg) ∧
        ∀ id node, c.nodes.get? id = some node →
          (∀ key reg, ZenithDB.StoredIn node.db.detached key reg →
            Sourced ((outageSystem p).trace start as) key reg) ∧
          (∀ key, ∃ found, node.db.getCrdt key = .ok found ∧
            ∀ reg ∈ found, Sourced ((outageSystem p).trace start as) key reg) ∧
          ∀ first last, ∃ rows, node.db.scanCrdt p first last = .ok rows ∧
            ∀ kv ∈ rows, Sourced ((outageSystem p).trace start as) kv.1 kv.2)
      WriteFailed := by
  have hrun := System.run_outcome (S := outageSystem p) (F := WriteFailed)
    (P := fun tr c => c.Enduring start.nodes.keys (Sourced tr))
    (fun tr c a h ha => outage_sources h p ha) (enduring_fresh hfresh) hsurvives
  apply hrun.imp
  rintro c - h
  rw [List.nil_append] at h
  have hR := keptByMerge_sourced ((outageSystem p).trace start as)
  refine ⟨fun msg hmsg => ?_, fun id node hnode => ?_⟩
  · obtain ⟨reg, hread, hreg⟩ := (h.queue msg hmsg).read
    exact ⟨reg, hread, hreg.has⟩
  have hmemory := (h.nodes id node hnode).2.memory
  refine ⟨fun key reg hstored => (hmemory.storedProper hR hstored).has, fun key => ?_,
    fun first last => ?_⟩
  · obtain ⟨found, hget, hfound⟩ := hmemory.readProper hR key
    exact ⟨found, hget, fun reg hreg => (hfound reg hreg).has⟩
  · obtain ⟨rows, hscan, hrows⟩ := hmemory.scanProper hR p first last
    exact ⟨rows, hscan, fun kv hkv => (hrows kv hkv).has⟩

/-- A write is cut off in its record, the next one of the node behind it is sent to a peer,
and the peer is killed when the message has been delivered. -/
def outagesOfTwo : List OutageAction :=
  [.kill (.put [65] 0 [107] [118]) 0 (some 9) 0, .act (.addPeer [65] [66]),
    .act (.put [65] 0 [107] [119]), .act (.deliver 0 0), .kill (.otherNames [66] 0) 0 none 0]

/-- The peer still has the second write. -/
theorem registers_survive_outages_of_two :
    ∃ c node, (outageSystem .stable).run strangers outagesOfTwo = .ok c ∧
      c.nodes.get? [66] = some node ∧
      node.db.getCrdt [107] = .ok (some ⟨[119], VectorClock.empty.increment [65]⟩) ∧
      ∀ key, ∃ found, node.db.getCrdt key = .ok found ∧
        ∀ reg ∈ found, Sourced ((outageSystem .stable).trace strangers outagesOfTwo) key reg := by
  obtain ⟨c, hrun, hshows⟩ : ∃ c, (outageSystem .stable).run strangers outagesOfTwo = .ok c ∧
      ∃ node ∈ c.nodes.get? [66],
        node.db.getCrdt [107] = .ok (some ⟨[119], VectorClock.empty.increment [65]⟩) := by
    decide +kernel
  obtain ⟨node, hnode, hget⟩ := hshows
  have hsurvives : (outageSystem .stable).Along (fun _ => Survives strangers.nodes.keys) []
      strangers outagesOfTwo := by decide +kernel
  obtain ⟨-, hnodes⟩ := (registers_survive_outages fresh_strangers hsurvives).result hrun
  exact ⟨c, node, hrun, hnode, hget, (hnodes [66] node hnode).2.1⟩

end Cluster

end Zenith
