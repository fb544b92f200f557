import Zenith.DB.Step

/-!
# Zenith — nodes

The nodes of `node.h` and `node.cpp`. A node writes to its own database, reads the written
register back and pushes what it reads to its peers; a message from a peer is merged into
the database as a remote write. Anti-entropy sends every live register of a scan to one
target.

Each method is one function that returns the messages it hands to the transport. The source
hands them over one by one under a mutex and returns nothing; since no method waits for an
answer, the list of what was handed over is all that others can see of it.

A push carries what is read back and not what was written. For a live value the two are the
same register; a delete reads back as nothing and is therefore not pushed at all, which is
the source's behaviour and not a simplification.
-/

namespace Zenith

open Bytes

/-- The two kinds of messages. A receiver treats them alike. -/
inductive MessageType
  /-- eager replication push -/
  | put
  /-- anti-entropy push -/
  | gossip
  deriving DecidableEq, Repr

/-- A message in flight. Its payload is bytes, as on a network; that it can be read as a
register is proved where it is needed. -/
structure Message where
  type : MessageType
  sender : NodeID
  receiver : NodeID
  key : Bytes
  /-- a serialized register -/
  payload : Bytes
  deriving DecidableEq

/-- A node: its database, and the peers it pushes to, in the order in which they were added. -/
structure Node where
  nodeId : NodeID
  db : ZenithDB
  peers : List NodeID

namespace Node

/-- A node over an empty directory. -/
def fresh (nodeId : NodeID) (counter : Nat) (peers : List NodeID) : Node :=
  ⟨nodeId, .fresh nodeId counter, peers⟩

/-- A node is not its own peer; another id can be added more than once. -/
def addPeer (n : Node) (peerId : NodeID) : Node :=
  if peerId ≠ n.nodeId then { n with peers := n.peers ++ [peerId] } else n

/-- The messages that push a register to every peer. -/
def pushToReplicas (n : Node) (key : Bytes) (crdt : LWWRegister) : List Message :=
  n.peers.map fun peer => ⟨.put, n.nodeId, peer, key, crdt.serialize⟩

/-- A client write: what is pushed is what the database returns afterwards. -/
def put (n : Node) (usage : Nat) (key value : Bytes) : Except Fault (Node × List Message) := do
  let n := { n with db := n.db.put usage key value }
  match ← n.db.getCrdt key with
  | some crdt => return (n, n.pushToReplicas key crdt)
  | none => return (n, [])

/-- A client read, of this node alone. -/
def get (n : Node) (key : Bytes) : Except Fault (Option Bytes) := n.db.get key

/-- The messages that send the live registers of the scan from `""` to `"\xFF"`. -/
def triggerAntiEntropy (p : Platform) (n : Node) (target : NodeID) :
    Except Fault (List Message) := do
  let results ← n.db.scanCrdt p [] [0xFF]
  return results.map fun kv => ⟨.gossip, n.nodeId, target, kv.1, kv.2.serialize⟩

/-- Both kinds of messages are merged into the database. A payload that cannot be read is an
exception before anything is written. -/
def onMessage (n : Node) (usage : Nat) (msg : Message) : Except Fault Node :=
  match msg.type with
  | .put | .gossip => do
    let incoming ← LWWRegister.deserialize msg.payload
    let db ← n.db.putCrdt usage msg.key incoming
    return { n with db := db }

end Node

end Zenith
