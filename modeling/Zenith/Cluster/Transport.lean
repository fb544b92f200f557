import Zenith.Cluster.Node

/-!
# Zenith — the cluster

The transport of `transport.h` with the nodes registered at it: a queue of messages in
flight, and the set of partitioned nodes, whose messages are dropped when they are
delivered.

`deliverAll` empties the queue in order, as the mock transport does. A network has more
freedom than that: in the runs of `system` a message in flight can be delivered at any time
and stays in flight, so that it can be delivered again, or it can be lost. What holds in all
these runs holds in those of the mock transport, and of any transport that neither makes
messages up nor changes them.

A step that concerns a node which does not exist changes nothing, so that runs need no
condition about names. The step fails only where the code throws, that is at a write to the
disk, or at a payload that is no register.

The trace of a run is the list of its local writes with the registers they created and the
messages they sent. Most results about clusters relate what is held somewhere to this list.
-/

namespace Zenith

open Bytes

/-- The state of all nodes and of the network between them. -/
structure Cluster where
  /-- the nodes that have registered a callback -/
  nodes : SortedMap NodeID Node
  queue : List Message
  partitioned : SortedMap NodeID Bool

namespace Cluster

/-- Hands one message to its receiver, unless that is unknown or partitioned. -/
def deliverMessage (c : Cluster) (usage : Nat) (msg : Message) : Except Fault Cluster :=
  match c.nodes.get? msg.receiver with
  | none => .ok c
  | some node =>
    if c.partitioned.get? msg.receiver = some true then .ok c
    else do
      let node ← node.onMessage usage msg
      return { c with nodes := c.nodes.insert msg.receiver node }

/-- Delivers the queue from its front. No callback sends a message, so the loop
sees the messages that were in flight when it started. -/
def deliverAll (c : Cluster) (usage : Nat → Nat) : Except Fault Cluster :=
  c.queue.zipIdx.foldlM (fun c m => c.deliverMessage (usage m.2) m.1) { c with queue := [] }

/-- Messages to the node are dropped from now on, or no longer. -/
def partition (c : Cluster) (id : NodeID) (isPartitioned : Bool) : Cluster :=
  { c with partitioned := c.partitioned.insert id isPartitioned }

/-- A method of one node; nothing happens where no node has the id. -/
def atNode (c : Cluster) (id : NodeID) (act : Node → Except Fault (Node × List Message)) :
    Except Fault Cluster :=
  match c.nodes.get? id with
  | none => .ok c
  | some node => do
    let (node, sent) ← act node
    return { c with nodes := c.nodes.insert id node, queue := c.queue ++ sent }

-- ---------------------------------------------------------------------------
-- Runs
-- ---------------------------------------------------------------------------

/-- A step of a cluster. -/
inductive Action
  | put (id : NodeID) (usage : Nat) (key value : Bytes)
  | triggerAntiEntropy (id target : NodeID)
  /-- the `i`-th message in flight reaches its receiver -/
  | deliver (i usage : Nat)
  /-- the `i`-th message in flight is lost -/
  | lose (i : Nat)
  | addPeer (id peer : NodeID)
  | partition (id : NodeID) (isPartitioned : Bool)
  /-- one step of the background worker of a node -/
  | work (id : NodeID) (time : Nat → Nat)
  /-- file names taken by other databases of the process of a node -/
  | otherNames (id : NodeID) (n : Nat)

/-- One step of the cluster. `put`, `work` and `deliver` are steps of one database; the
others are about peers, queues and partitions. -/
def step (p : Platform) (c : Cluster) : Action → Except Fault Cluster
  | .put id usage key value => c.atNode id fun node => node.put usage key value
  | .triggerAntiEntropy id target => c.atNode id fun node => do
    let sent ← node.triggerAntiEntropy p target
    return (node, sent)
  | .deliver i usage =>
    match c.queue[i]? with
    | none => .ok c
    | some msg => c.deliverMessage usage msg
  | .lose i => .ok { c with queue := c.queue.eraseIdx i }
  | .addPeer id peer => c.atNode id fun node => .ok (node.addPeer peer, [])
  | .partition id isPartitioned => .ok (c.partition id isPartitioned)
  | .work id time => c.atNode id fun node => do
    let db ← node.db.work p time
    return ({ node with db := db }, [])
  | .otherNames id n => c.atNode id fun node =>
    .ok ({ node with db := { node.db with counter := node.db.counter + n } }, [])

/-- A local write of a run: where it was made, its key, the register it created
and the messages it sent. -/
structure Write where
  node : NodeID
  key : Bytes
  reg : LWWRegister
  sent : List Message

/-- The local write that a step performs. -/
def writes (c : Cluster) : Action → List Write
  | .put id usage key value =>
    match c.nodes.get? id with
    | none => []
    | some node =>
      match node.put usage key value with
      | .error _ => []
      | .ok (_, sent) => [⟨id, key, node.db.localRegister value, sent⟩]
  | _ => []

/-- Clusters as a step system; the trace of a run lists its local writes. -/
def system (p : Platform) : System Cluster Action Write Fault := ⟨step p, writes⟩

/-- Nodes over empty directories, each under its own id, and nothing in flight. -/
structure Fresh (c : Cluster) : Prop where
  nodes : ∀ e ∈ c.nodes.toList, ∃ counter peers, e.2 = Node.fresh e.1 counter peers
  queue : c.queue = []

/-- Two nodes that do not know each other. -/
def strangers : Cluster where
  nodes := (SortedMap.empty.insert [65] (Node.fresh [65] 0 [])).insert [66] (Node.fresh [66] 0 [])
  queue := []
  partitioned := SortedMap.empty

theorem fresh_strangers : strangers.Fresh where
  nodes := by
    intro e he
    rcases SortedMap.mem_insertEntry he with rfl | he
    · exact ⟨0, [], rfl⟩
    · rcases SortedMap.mem_insertEntry he with rfl | he
      · exact ⟨0, [], rfl⟩
      · exact absurd he List.not_mem_nil
  queue := rfl

end Cluster

end Zenith
