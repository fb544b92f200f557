import Zenith.Cluster.Transport
import Zenith.DB.Clocks

/-!
# Zenith — the clocks of a cluster

The component of a node in a clock counts the node's own writes, and only the node itself
moves it forward. So its local clock holds the largest value that the component has anywhere
(`Owned`), and a local write, which goes one above that, cannot be mistaken for any write
before it.

What a clock says of a node it says of all that the node had seen: a clock that counts a
write is above the whole clock of that write (`Causal`).

Both hold in every run in which records fit, whatever is lost, repeated or reordered. The
invariant `Clocked` is stated once, for any property of clocks that joins keep (`Joins`):
all clocks of the cluster, in memory, in tables and in flight, are owned and have it. A
method of one node has to show only what it `Advances`, and `Clocked.update` puts this into
the cluster. With `Causal tr` for the property, and the writes so far for `tr`, it becomes
`Recorded`, whose step lemma treats a local write apart from all other steps: only there
does the list of writes grow.

The assumption is `Sized`. A register that does not fit its length fields reads back as
another one, and a counter that wraps around is below the writes it should be after. The ids
must fit as well: with an id of `2 ^ 32` bytes the length field is zero, and the register
that is read back belongs to a node with an empty id (`long_id_breaks_clocks`).

Main results: `Recorded.step` and `clock_invariant`.
-/

namespace Zenith

open Bytes VectorClock

namespace Cluster

variable {ids : List NodeID} {P : VectorClock → Prop} {p : Platform} {c c' : Cluster}

/-- No component of the clock is above the own component of its node. Ids of nodes that do
not exist are not restricted. -/
def Owned (c : Cluster) (clock : VectorClock) : Prop :=
  ∀ id node, c.nodes.get? id = some node → clock.get id ≤ node.db.localClock.get id

theorem Owned.le {clock clock' : VectorClock} (h : c.Owned clock) (hle : clock' ≤ clock) :
    c.Owned clock' := fun id node hnode => (hle id).trans (h id node hnode)

theorem Owned.merge {a b : VectorClock} (ha : c.Owned a) (hb : c.Owned b) : c.Owned (a.merge b) := by
  intro id node hnode
  rw [get_merge]
  exact max_le (ha id node hnode) (hb id node hnode)

/-- Local clocks only go up. -/
def Grows (c c' : Cluster) : Prop :=
  ∀ id node', c'.nodes.get? id = some node' →
    ∃ node, c.nodes.get? id = some node ∧ node.db.localClock ≤ node'.db.localClock

theorem Grows.refl (c : Cluster) : c.Grows c := fun _ node hnode => ⟨node, hnode, le_refl _⟩

theorem Grows.trans {c'' : Cluster} (h : c.Grows c') (h' : c'.Grows c'') : c.Grows c'' := by
  intro id node'' hnode''
  obtain ⟨node', hnode', hle'⟩ := h' id node'' hnode''
  obtain ⟨node, hnode, hle⟩ := h id node' hnode'
  exact ⟨node, hnode, hle.trans hle'⟩

theorem Owned.grows {clock : VectorClock} (h : c.Owned clock) (hgrows : c.Grows c') :
    c'.Owned clock := by
  intro id node' hnode'
  obtain ⟨node, hnode, hle⟩ := hgrows id node' hnode'
  exact (h id node hnode).trans (hle id)

-- ---------------------------------------------------------------------------
-- The invariant on clocks
-- ---------------------------------------------------------------------------

/-- All clocks, stored and in flight, are owned and have the property. -/
structure Clocked (ids : List NodeID) (P : VectorClock → Prop) (c : Cluster) : Prop where
  nodes : ∀ id node, c.nodes.get? id = some node →
    node.db.nodeId = id ∧ ZenithDB.Clocked ids P node.db
  own : ∀ id node, c.nodes.get? id = some node → c.Owned node.db.localClock
  queue : ∀ msg ∈ c.queue, ZenithDB.Carries ids (fun k => c.Owned k ∧ P k) msg.key msg.payload

theorem Clocked.mono {P' : VectorClock → Prop} (h : c.Clocked ids P)
    (hle : ∀ k, c.Owned k → P k → P' k) : c.Clocked ids P' where
  nodes id node hnode := by
    obtain ⟨hid, hdb⟩ := h.nodes id node hnode
    exact ⟨hid, hdb.mono fun k hk => hle k ((h.own id node hnode).le hk)⟩
  own := h.own
  queue msg hmsg := (h.queue msg hmsg).mono fun k hk => ⟨hk.1, hle k hk.1 hk.2⟩

theorem clocked_fresh (h : c.Fresh) (hempty : P .empty) :
    c.Clocked (c.nodes.keys) P := by
  have hnode : ∀ id node, c.nodes.get? id = some node →
      ∃ counter peers, node = Node.fresh id counter peers := fun id node hnode =>
    h.nodes _ (SortedMap.get?_eq_some_iff.mp hnode)
  refine ⟨fun id node hget => ?_, fun id node hget => ?_, fun msg hmsg => ?_⟩
  · obtain ⟨counter, peers, rfl⟩ := hnode id node hget
    exact ⟨rfl, ZenithDB.clocked_fresh (SortedMap.mem_keys_iff.mpr ⟨_, hget⟩) hempty counter⟩
  · obtain ⟨counter, peers, rfl⟩ := hnode id node hget
    exact fun i n _ => empty_le _ i
  · rw [h.queue] at hmsg
    exact absurd hmsg List.not_mem_nil

/-- What a method of one node may do: its clock goes up, and in the components of other
nodes not above theirs; the clocks it sends are below its own. -/
structure Advances (ids : List NodeID) (P : VectorClock → Prop) (c : Cluster) (id : NodeID) (node : Node)
    (r : Node × List Message) : Prop where
  nodeId : r.1.db.nodeId = id
  clocked : ZenithDB.Clocked ids P r.1.db
  grows : node.db.localClock ≤ r.1.db.localClock
  others : ∀ i n, i ≠ id → c.nodes.get? i = some n →
    r.1.db.localClock.get i ≤ n.db.localClock.get i
  sent : ∀ msg ∈ r.2, ZenithDB.Carries ids (fun k => k ≤ r.1.db.localClock ∧ P k) msg.key msg.payload

/-- A method that leaves the local clock as it is. -/
theorem Clocked.advances (h : c.Clocked ids P) {id : NodeID} {node : Node}
    (hnode : c.nodes.get? id = some node) {r : Node × List Message}
    (hnodeId : r.1.db.nodeId = node.db.nodeId) (hclock : r.1.db.localClock = node.db.localClock)
    (hclocked : ZenithDB.Clocked ids P r.1.db)
    (hsent : ∀ msg ∈ r.2,
      ZenithDB.Carries ids (fun k => k ≤ node.db.localClock ∧ P k) msg.key msg.payload) :
    Advances ids P c id node r where
  nodeId := hnodeId.trans (h.nodes id node hnode).1
  clocked := hclocked
  grows := hclock.ge
  others i n _ hn := by
    rw [hclock]
    exact h.own id node hnode i n hn
  sent := by rwa [hclock]

/-- The cluster after one of its nodes has advanced. Clocks of other nodes stay owned, since
no local clock goes down. -/
theorem Clocked.update (h : c.Clocked ids P) {id : NodeID} {node : Node}
    (hnode : c.nodes.get? id = some node) {r : Node × List Message}
    (hadvances : Advances ids P c id node r) :
    ({ c with nodes := c.nodes.insert id r.1, queue := c.queue ++ r.2 } : Cluster).Clocked ids P ∧
      c.Grows { c with nodes := c.nodes.insert id r.1, queue := c.queue ++ r.2 } := by
  -- the nodes after the update
  have hget : ∀ i n, (c.nodes.insert id r.1).get? i = some n →
      (i = id ∧ n = r.1) ∨ (i ≠ id ∧ c.nodes.get? i = some n) := by
    intro i n hn
    rw [SortedMap.get?_insert] at hn
    by_cases hi : i = id
    · rw [if_pos hi] at hn
      exact .inl ⟨hi, (Option.some.inj hn).symm⟩
    · rw [if_neg hi] at hn
      exact .inr ⟨hi, hn⟩
  -- no clock shrinks
  have hgrows : c.Grows { c with nodes := c.nodes.insert id r.1, queue := c.queue ++ r.2 } := by
    intro i n hn
    rcases hget i n hn with ⟨rfl, rfl⟩ | ⟨-, hn⟩
    · exact ⟨node, hnode, hadvances.grows⟩
    · exact ⟨n, hn, le_refl _⟩
  -- and the owners of the counters know the new ones
  have howned : Owned { c with nodes := c.nodes.insert id r.1, queue := c.queue ++ r.2 }
      r.1.db.localClock := by
    intro i n hn
    rcases hget i n hn with ⟨rfl, rfl⟩ | ⟨hi, hn⟩
    · exact le_rfl
    · exact hadvances.others i n hi hn
  refine ⟨⟨fun i n hn => ?_, fun i n hn => ?_, fun msg hmsg => ?_⟩, hgrows⟩
  · rcases hget i n hn with ⟨rfl, rfl⟩ | ⟨-, hn⟩
    · exact ⟨hadvances.nodeId, hadvances.clocked⟩
    · exact h.nodes i n hn
  · rcases hget i n hn with ⟨rfl, rfl⟩ | ⟨-, hn⟩
    · exact howned
    · exact (h.own i n hn).grows hgrows
  · rcases List.mem_append.mp hmsg with hold | hnew
    · exact (h.queue msg hold).mono fun k hk => ⟨hk.1.grows hgrows, hk.2⟩
    · exact (hadvances.sent msg hnew).mono fun k hk => ⟨howned.le hk.1, hk.2⟩

-- ---------------------------------------------------------------------------
-- Steps
-- ---------------------------------------------------------------------------

/-- Records fit their length fields, and no counter wraps. It is asked of local writes only;
what is delivered has been written somewhere. -/
def Sized (ids : List NodeID) (c : Cluster) : Action → Prop
  | .put id _ key value => ∀ node ∈ c.nodes.get? id,
    ZenithDB.Fits ids key value ∧ (node.db.localClock.get id).toNat + 1 < 2 ^ 64
  | _ => True

/-- A method of one node keeps the invariant when all it does is advance. -/
theorem Clocked.atNode (h : c.Clocked ids P) {id : NodeID}
    {act : Node → Except Fault (Node × List Message)}
    (hact : ∀ node, c.nodes.get? id = some node →
      (act node).Post (Advances ids P c id node) WriteFailed) :
    (c.atNode id act).Post (fun c' => c'.Clocked ids P ∧ c.Grows c') WriteFailed := by
  unfold Cluster.atNode
  cases hnode : c.nodes.get? id with
  | none => exact ⟨h, .refl c⟩
  | some node =>
    apply Except.Post.bind (hact node hnode)
    rintro ⟨node', sent⟩ hadvances
    exact h.update hnode hadvances

/-- A local write moves the own component only, and sends what it reads back. -/
theorem Clocked.put (hP : Joins P) (h : c.Clocked ids P) {id : NodeID} {node : Node}
    (hnode : c.nodes.get? id = some node) {usage : Nat} {key value : Bytes}
    (hfits : ZenithDB.Fits ids key value) (hcount : (node.db.localClock.get id).toNat + 1 < 2 ^ 64)
    (hclock : P (node.db.localRegister value).clock) :
    (node.put usage key value).Post (Advances ids P c id node) WriteFailed := by
  obtain ⟨hid, hdb⟩ := h.nodes id node hnode
  have hput := hdb.put usage hfits (by rwa [hid]) hclock
  -- a put moves the clock by one in the own component, whether or not it rotates
  have hsame : (node.db.put usage key value).localClock = node.db.localClock.increment id ∧
      (node.db.put usage key value).nodeId = id := by
    unfold ZenithDB.put ZenithDB.storeRecord
    rw [← hid]
    dsimp only
    split <;> exact ⟨rfl, rfl⟩
  obtain ⟨found, hget, hfound⟩ := hput.read hP key
  -- whatever is sent, if the clock covers it
  have hadvances : ∀ sent : List Message,
      (∀ msg ∈ sent, ZenithDB.Carries ids
        (fun k => k ≤ (node.db.put usage key value).localClock ∧ P k) msg.key msg.payload) →
      Advances ids P c id node ({ node with db := node.db.put usage key value }, sent) := by
    intro sent hsent
    refine ⟨hsame.2, hput, ?_, fun i n hi hn => ?_, hsent⟩
    · show _ ≤ (node.db.put usage key value).localClock
      rw [hsame.1]
      exact (VectorClock.lt_increment hcount).le
    · show (node.db.put usage key value).localClock.get i ≤ _
      rw [hsame.1, get_increment_of_ne _ hi]
      exact h.own id node hnode i n hn
  unfold Node.put
  dsimp only
  rw [hget, Except.ok_bind]
  cases found with
  | none => exact hadvances [] fun msg hmsg => absurd hmsg List.not_mem_nil
  | some crdt =>
    -- what is pushed was read back after the write
    refine hadvances _ fun msg hmsg => ?_
    obtain ⟨peer, -, rfl⟩ := List.mem_map.mp hmsg
    obtain ⟨hlive, hcrdt⟩ := hfound crdt rfl
    exact ⟨crdt, rfl, hlive.clock, hlive.fits, hcrdt⟩

/-- A message moves no component above the own one of its node. -/
theorem Clocked.deliverMessage (hP : Joins P) (h : c.Clocked ids P) {usage : Nat} {msg : Message}
    (hmsg : ZenithDB.Carries ids (fun k => c.Owned k ∧ P k) msg.key msg.payload) :
    (c.deliverMessage usage msg).Post (fun c' => c'.Clocked ids P ∧ c.Grows c') WriteFailed := by
  -- the local clock becomes the merge with the register's, which is owned
  unfold Cluster.deliverMessage
  cases hnode : c.nodes.get? msg.receiver with
  | none => exact ⟨h, .refl c⟩
  | some node =>
    dsimp only
    split
    · exact ⟨h, .refl c⟩
    · obtain ⟨hid, hdb⟩ := h.nodes _ node hnode
      obtain ⟨incoming, hread, -, hids, hfits, howned, hclock⟩ := hmsg.read
      obtain ⟨db', hput, hclocked, hlocal, hnodeId⟩ := hdb.putCrdt hP usage hids hfits hclock
      -- the type of the message makes no difference: both branches put the register
      have hmessage : node.onMessage usage msg = .ok { node with db := db' } := by
        unfold Node.onMessage
        cases msg.type <;> simp only [hread, hput, Except.ok_bind, Except.pure_eq_ok]
      have hadvances : Advances ids P c msg.receiver node ({ node with db := db' }, []) := by
        refine ⟨hnodeId.trans hid, hclocked, ?_, fun i n _ hn => ?_,
          fun m hm => absurd hm List.not_mem_nil⟩
        · show _ ≤ db'.localClock
          rw [hlocal]
          exact VectorClock.le_merge_left _ _
        · show db'.localClock.get i ≤ _
          rw [hlocal]
          exact ((h.own _ node hnode).merge howned) i n hn
      have hupdate := h.update hnode hadvances
      rw [List.append_nil] at hupdate
      rw [hmessage]
      exact hupdate

/-- **One step** keeps the invariant, if the clock of a local write has the property. -/
theorem Clocked.step (hP : Joins P) (h : c.Clocked ids P) {a : Action} (ha : c.Sized ids a)
    (hclock : ∀ id usage key value, a = .put id usage key value →
      ∀ node, c.nodes.get? id = some node → P (node.db.localRegister value).clock) :
    (c.step p a).Post (fun c' => c'.Clocked ids P ∧ c.Grows c') WriteFailed := by
  have hnothing : ∀ clock, ∀ msg ∈ ([] : List Message),
      ZenithDB.Carries ids (fun k => k ≤ clock ∧ P k) msg.key msg.payload :=
    fun _ msg hmsg => absurd hmsg List.not_mem_nil
  -- only a put advances the node's own entry; all other actions merge or keep the clocks
  cases a with
  | put id usage key value =>
    refine h.atNode fun node hnode => ?_
    obtain ⟨hfits, hcount⟩ := ha node hnode
    exact h.put hP hnode hfits hcount (hclock id usage key value rfl node hnode)
  | triggerAntiEntropy id target =>
    refine h.atNode fun node hnode => ?_
    obtain ⟨-, hdb⟩ := h.nodes id node hnode
    -- what a pass sends was read from the node, so the node covers it
    obtain ⟨rows, hscan, hrows⟩ := hdb.scan hP p [] [0xFF]
    unfold Node.triggerAntiEntropy
    rw [hscan]
    refine h.advances hnode rfl rfl hdb fun msg hmsg => ?_
    obtain ⟨kv, hkv, rfl⟩ := List.mem_map.mp hmsg
    obtain ⟨hlive, hle⟩ := hrows kv hkv
    exact ⟨kv.2, rfl, hlive.clock, hlive.fits, hle⟩
  | deliver i usage =>
    unfold Cluster.step
    dsimp only
    cases hmsg : c.queue[i]? with
    | none => exact ⟨h, .refl c⟩
    | some msg => exact h.deliverMessage hP (h.queue msg (List.mem_of_getElem? hmsg))
  | lose i =>
    exact ⟨⟨h.nodes, h.own, fun msg hmsg => h.queue msg (List.mem_of_mem_eraseIdx hmsg)⟩, .refl c⟩
  | addPeer id peer =>
    refine h.atNode fun node hnode => ?_
    obtain ⟨-, hdb⟩ := h.nodes id node hnode
    have hsame : (node.addPeer peer).db = node.db := by
      unfold Node.addPeer
      split <;> rfl
    exact h.advances hnode (by rw [hsame]) (by rw [hsame]) (by rwa [hsame]) (hnothing _)
  | partition id isPartitioned => exact ⟨⟨h.nodes, h.own, h.queue⟩, .refl c⟩
  | work id time =>
    refine h.atNode fun node hnode => ?_
    obtain ⟨-, hdb⟩ := h.nodes id node hnode
    apply Except.Post.bind (hdb.work hP p time)
    rintro db' ⟨hclocked, hlocal, hnodeId⟩
    exact h.advances hnode hnodeId hlocal hclocked (hnothing _)
  | otherNames id n =>
    refine h.atNode fun node hnode => ?_
    obtain ⟨-, hdb⟩ := h.nodes id node hnode
    exact h.advances hnode rfl rfl ⟨hdb.node, hdb.clock, hdb.known, ⟨hdb.stores.memtables,
      hdb.stores.layout, hdb.stores.worker, hdb.stores.files⟩⟩ (hnothing _)

-- ---------------------------------------------------------------------------
-- The writes of a run
-- ---------------------------------------------------------------------------

/-- A clock that counts a write is above all of the write's clock. It is the property of
clocks for which the invariant is used. -/
def Causal (tr : List Write) (clock : VectorClock) : Prop :=
  ∀ w ∈ tr, w.reg.clock.get w.node ≤ clock.get w.node → w.reg.clock ≤ clock

theorem joins_causal (tr : List Write) : Joins (Causal tr) := by
  intro a b ha hb w hw hle
  rw [get_merge] at hle
  rcases le_max_iff.mp hle with hle | hle
  · exact (ha w hw hle).trans (le_merge_left a b)
  · exact (hb w hw hle).trans (le_merge_right a b)

/-- What the clocks say of the writes so far. -/
structure Recorded (ids : List NodeID) (tr : List Write) (c : Cluster) : Prop where
  clocked : c.Clocked ids (Causal tr)
  writes : ∀ w ∈ tr, c.Owned w.reg.clock ∧ Causal tr w.reg.clock
  /-- a write counts one more write of its node than any write before it -/
  later : tr.Pairwise fun w w' => w.reg.clock.get w'.node < w'.reg.clock.get w'.node

theorem recorded_fresh (h : c.Fresh) : c.Recorded c.nodes.keys [] where
  clocked := clocked_fresh h fun _ hw => absurd hw List.not_mem_nil
  writes _ hw := absurd hw List.not_mem_nil
  later := List.Pairwise.nil

/-- The clock of a local write: it is above the local clock, and its own component is above
that component of all clocks. -/
theorem Clocked.localRegister (h : c.Clocked ids P) {id : NodeID} {node : Node}
    (hnode : c.nodes.get? id = some node)
    (hcount : (node.db.localClock.get id).toNat + 1 < 2 ^ 64) (value : Bytes) :
    node.db.localClock < (node.db.localRegister value).clock ∧
      ∀ k, c.Owned k → k.get id < (node.db.localRegister value).clock.get id := by
  obtain ⟨hid, -⟩ := h.nodes id node hnode
  have hreg : (node.db.localRegister value).clock = node.db.localClock.increment id := by
    unfold ZenithDB.localRegister
    rw [hid]
  rw [hreg]
  refine ⟨VectorClock.lt_increment hcount, fun k hk => lt_of_le_of_lt (hk id node hnode) ?_⟩
  rw [UInt64.lt_iff_toNat_lt, toNat_get_increment hcount]
  exact Nat.lt_succ_self _

/-- **A local write** is recorded. -/
theorem Recorded.put {tr : List Write} (h : c.Recorded ids tr) {id : NodeID} {usage : Nat}
    {key value : Bytes} {node : Node} (hnode : c.nodes.get? id = some node)
    (hsized : c.Sized ids (.put id usage key value)) (sent : List Message)
    (hstep : c.step p (.put id usage key value) = .ok c') :
    c'.Recorded ids (tr ++ [⟨id, key, node.db.localRegister value, sent⟩]) ∧ c.Grows c' := by
  have hcount := (hsized node hnode).2
  obtain ⟨hlt, habove⟩ := h.clocked.localRegister hnode hcount value
  have hknown := (h.clocked.nodes id node hnode).2.known
  have hown := h.clocked.own id node hnode
  -- no clock so far counts the new write
  have hold : ∀ k, c.Owned k → Causal tr k →
      Causal (tr ++ [⟨id, key, node.db.localRegister value, sent⟩]) k := by
    intro k howned hcausal w hw hle
    rcases List.mem_append.mp hw with hw | hw
    · exact hcausal w hw hle
    · obtain rfl := List.mem_singleton.mp hw
      exact absurd hle (habove k howned).not_ge
  have hnew : Causal (tr ++ [⟨id, key, node.db.localRegister value, sent⟩])
      (node.db.localRegister value).clock := by
    intro w hw hle
    rcases List.mem_append.mp hw with hw | hw
    · -- the local clock counts every write that the new clock counts
      refine (hknown w hw ?_).trans hlt.le
      by_cases hid : w.node = id
      · rw [hid]
        exact (h.writes w hw).1 id node hnode
      · have hreg : (node.db.localRegister value).clock = node.db.localClock.increment id := by
          unfold ZenithDB.localRegister
          rw [(h.clocked.nodes id node hnode).1]
        rwa [hreg, get_increment_of_ne _ hid] at hle
    · obtain rfl := List.mem_singleton.mp hw
      exact le_refl _
  have hpost := (h.clocked.mono hold).step (p := p) (joins_causal _) hsized fun i u k v heq n hn => by
    obtain ⟨rfl, -, -, rfl⟩ := Action.put.inj heq
    obtain rfl := Option.some.inj (hnode.symm.trans hn)
    exact hnew
  obtain ⟨hclocked, hgrows⟩ := hpost.result hstep
  -- the local clock after the write is that of its register
  have hlocal : c'.Owned (node.db.localRegister value).clock := by
    have hput : ∃ node', c'.nodes.get? id = some node' ∧
        node'.db.localClock = (node.db.localRegister value).clock := by
      have hatNode : c.atNode id (fun node => node.put usage key value) = .ok c' := hstep
      unfold Cluster.atNode at hatNode
      rw [hnode] at hatNode
      obtain ⟨⟨node', sent'⟩, hnodePut, heq⟩ := Except.bind_eq_ok_iff.mp hatNode
      obtain rfl := Except.ok.inj heq
      refine ⟨node', SortedMap.get?_insert_self .., ?_⟩
      unfold Node.put at hnodePut
      obtain ⟨found, -, hfound⟩ := Except.bind_eq_ok_iff.mp hnodePut
      have hdb : node'.db = node.db.put usage key value := by
        cases found <;> (obtain ⟨rfl, -⟩ := Prod.mk.inj (Except.ok.inj hfound); rfl)
      rw [hdb]
      unfold ZenithDB.put ZenithDB.storeRecord
      dsimp only
      split <;> rfl
    obtain ⟨node', hnode', hclock⟩ := hput
    rw [← hclock]
    exact hclocked.own id node' hnode'
  refine ⟨⟨hclocked, fun w hw => ?_, ?_⟩, hgrows⟩
  · rcases List.mem_append.mp hw with hw | hw
    · obtain ⟨howned, hcausal⟩ := h.writes w hw
      exact ⟨howned.grows hgrows, hold _ howned hcausal⟩
    · obtain rfl := List.mem_singleton.mp hw
      exact ⟨hlocal, hnew⟩
  · refine List.pairwise_append.mpr ⟨h.later, List.pairwise_singleton _ _, fun w hw w' hw' => ?_⟩
    obtain rfl := List.mem_singleton.mp hw'
    exact habove _ (h.writes w hw).1

/-- **One step** keeps what the clocks say of the writes. -/
theorem Recorded.step {tr : List Write} (h : c.Recorded ids tr) {a : Action} (ha : c.Sized ids a)
    (hstep : c.step p a = .ok c') : c'.Recorded ids (tr ++ c.writes a) ∧ c.Grows c' := by
  -- a step that is no write
  have hquiet : c.writes a = [] → (∀ id usage key value, a = .put id usage key value →
      ∀ node, c.nodes.get? id = some node → Causal tr (node.db.localRegister value).clock) →
      c'.Recorded ids (tr ++ c.writes a) ∧ c.Grows c' := by
    intro hwrites hclock
    obtain ⟨hclocked, hgrows⟩ := (h.clocked.step (joins_causal tr) ha hclock).result hstep
    rw [hwrites, List.append_nil]
    exact ⟨⟨hclocked, fun w hw => ⟨(h.writes w hw).1.grows hgrows, (h.writes w hw).2⟩, h.later⟩, hgrows⟩
  cases a with
  | put id usage key value =>
    cases hnode : c.nodes.get? id with
    | none =>
      refine hquiet (by simp only [Cluster.writes, hnode]) fun i u k v heq n hn => ?_
      obtain ⟨rfl, -⟩ := Action.put.inj heq
      rw [hnode] at hn
      exact absurd hn (by simp)
    | some node =>
      cases hput : node.put usage key value with
      | error e =>
        -- a put that fails is no step
        have herror : c.atNode id (fun node => node.put usage key value) = .ok c' := hstep
        unfold Cluster.atNode at herror
        rw [hnode] at herror
        dsimp only at herror
        rw [hput] at herror
        exact absurd herror (by simp)
      | ok r =>
        have hwrites : c.writes (.put id usage key value) =
            [⟨id, key, node.db.localRegister value, r.2⟩] := by
          simp only [Cluster.writes, hnode, hput]
        rw [hwrites]
        exact h.put hnode ha r.2 hstep
  | _ => exact hquiet rfl fun _ _ _ _ heq => by simp at heq

theorem recorded_run {start : Cluster} {as : List Action} (hfresh : start.Fresh)
    (hrun : (system p).run start as = .ok c)
    (hsized : (system p).Along (fun _ => Sized start.nodes.keys) [] start as) :
    c.Recorded start.nodes.keys ((system p).trace start as) :=
  System.run_invariant (P := fun tr s => s.Recorded start.nodes.keys tr)
    (fun _ _ _ _ h hcond hstep => (h.step hcond hstep).1) (recorded_fresh hfresh) hsized hrun

/-- A register that a node holds or that is in flight. -/
def Occurs (c : Cluster) (key : Bytes) (reg : LWWRegister) : Prop :=
  (∃ id node, c.nodes.get? id = some node ∧ ZenithDB.StoredIn node.db key reg) ∨
    ∃ msg ∈ c.queue, msg.key = key ∧ LWWRegister.deserialize msg.payload = .ok reg

theorem Clocked.occurs (hP : Joins P) (h : c.Clocked ids P) {key : Bytes} {reg : LWWRegister}
    (hreg : c.Occurs key reg) : c.Owned reg.clock ∧ P reg.clock := by
  rcases hreg with ⟨id, node, hnode, hstored⟩ | ⟨msg, hmsg, -, hread⟩
  · obtain ⟨hle, hclock⟩ := (h.nodes id node hnode).2.storedIn hP hstored
    exact ⟨(h.own id node hnode).le hle, hclock⟩
  · exact (h.queue msg hmsg).clock hread

/-- **The clocks of a cluster.** In every state that a cluster of fresh nodes reaches, by
writes that fit, (a) what a node stores is below its local clock, (b) what occurs anywhere
counts no more writes of a node than the node itself, (c) the clock of the next local write
is strictly above all that the node stored at any time before, and no two local writes of
the run have equal clocks. The parts are about one invariant, and no part needs anything of
the order of deliveries.

Hypotheses:
* `hfresh` — each node starts over an empty directory, under its own id;
* `hrun` — the run, of any length and in any order of steps;
* `hsized` — the records of local writes fit their length fields, and the counter of the
  writing node does not wrap. -/
theorem clock_invariant {start : Cluster} {as : List Action} (hfresh : start.Fresh)
    (hrun : (system p).run start as = .ok c)
    (hsized : (system p).Along (fun _ => Sized start.nodes.keys) [] start as) :
    (∀ id node, c.nodes.get? id = some node → ∀ key reg, ZenithDB.StoredIn node.db key reg →
      reg.clock ≤ node.db.localClock) ∧
    (∀ key reg, c.Occurs key reg → ∀ id node, c.nodes.get? id = some node →
      reg.clock.get id ≤ node.db.localClock.get id) ∧
    (∀ before after earlier, as = before ++ after → (system p).run start before = .ok earlier →
      ∀ id node node', earlier.nodes.get? id = some node → c.nodes.get? id = some node' →
        (node'.db.localClock.get id).toNat + 1 < 2 ^ 64 → ∀ key reg,
          ZenithDB.StoredIn node.db key reg → ∀ value,
            reg.clock < (node'.db.localRegister value).clock) ∧
    ((system p).trace start as).Pairwise fun w w' => ∃ n, w.reg.clock.get n ≠ w'.reg.clock.get n := by
  have hrecorded := recorded_run hfresh hrun hsized
  refine ⟨?_, ?_, ?_, ?_⟩
  · intro id node hnode key reg hreg
    exact ((hrecorded.clocked.nodes id node hnode).2.storedIn (joins_causal _) hreg).1
  · intro key reg hreg
    exact (hrecorded.clocked.occurs (joins_causal _) hreg).1
  · rintro before after earlier rfl hbefore id node node' hnode hnode' hcount key reg hreg value
    have hearlier := recorded_run hfresh hbefore hsized.append_left
    rw [System.run_append hbefore] at hrun
    -- the local clock only goes up from the earlier state on
    have hafter := hsized.append_right hbefore
    rw [List.nil_append] at hafter
    obtain ⟨-, hgrows⟩ := System.run_invariant (P := fun tr s => s.Recorded start.nodes.keys tr ∧
        earlier.Grows s)
      (fun _ _ _ _ h hcond hstep =>
        ⟨(h.1.step hcond hstep).1, h.2.trans (h.1.step hcond hstep).2⟩)
      ⟨hearlier, .refl earlier⟩ hafter hrun
    obtain ⟨n, hn, hle⟩ := hgrows id node' hnode'
    obtain rfl := Option.some.inj (hnode.symm.trans hn)
    have hbelow := ((hearlier.clocked.nodes id node hnode).2.storedIn (joins_causal _) hreg).1
    exact lt_of_le_of_lt (hbelow.trans hle)
      (hrecorded.clocked.localRegister hnode' hcount value).1
  · exact hrecorded.later.imp fun hlt => ⟨_, hlt.ne⟩

instance (ids : List NodeID) (c : Cluster) : ∀ a, Decidable (Sized ids c a)
  | .put id _ key value => inferInstanceAs (Decidable (∀ node ∈ c.nodes.get? id,
      ZenithDB.Fits ids key value ∧ (node.db.localClock.get id).toNat + 1 < 2 ^ 64))
  | .triggerAntiEntropy _ _ => isTrue trivial
  | .deliver _ _ => isTrue trivial
  | .lose _ => isTrue trivial
  | .addPeer _ _ => isTrue trivial
  | .partition _ _ => isTrue trivial
  | .work _ _ => isTrue trivial
  | .otherNames _ _ => isTrue trivial

/-- A write, its delivery, and a write at the receiver. -/
theorem clock_invariant_of_exchange :
    ∃ c, (system .stable).run strangers [.addPeer [65] [66], .put [65] 0 [107] [118], .deliver 0 0,
        .put [66] 0 [107] [119]] = .ok c ∧
      (∀ key reg, c.Occurs key reg → ∀ id node, c.nodes.get? id = some node →
        reg.clock.get id ≤ node.db.localClock.get id) ∧
      ((system .stable).trace strangers [.addPeer [65] [66], .put [65] 0 [107] [118], .deliver 0 0,
        .put [66] 0 [107] [119]]).Pairwise fun w w' => ∃ n, w.reg.clock.get n ≠ w'.reg.clock.get n := by
  obtain ⟨c, hrun⟩ := Except.exists_eq_ok (x := (system .stable).run strangers
    [.addPeer [65] [66], .put [65] 0 [107] [118], .deliver 0 0, .put [66] 0 [107] [119]])
    (by decide +kernel)
  obtain ⟨-, howned, -, hdistinct⟩ := clock_invariant fresh_strangers hrun (by decide +kernel)
  exact ⟨c, hrun, howned, hdistinct⟩

-- ---------------------------------------------------------------------------
-- Ids that do not fit
-- ---------------------------------------------------------------------------

/-- An id of `2 ^ 32` bytes: its length field is zero, and its first bytes take the
place of the counter behind it. -/
theorem serialize_longId {zeros : Bytes} (hlength : zeros.length = 2 ^ 32 - 8) (value : Bytes) :
    LWWRegister.serialize ⟨value, VectorClock.empty.increment ([1, 0, 0, 0, 0, 0, 0, 0] ++ zeros)⟩ =
      LWWRegister.serialize ⟨zeros ++ (leBytes 8 1 ++ value), VectorClock.empty.increment []⟩ := by
  have hclock : ∀ id : NodeID, (VectorClock.empty.increment id).serialize =
      leBytes 4 1 ++ (leBytes 4 id.length ++ (id ++ leBytes 8 1)) := by
    intro id
    show leBytes 4 1 ++ [(id, (0 : Counter) + 1)].flatMap VectorClock.serializeEntry = _
    rw [List.flatMap_singleton]
    rfl
  have hid : ([1, 0, 0, 0, 0, 0, 0, 0] ++ zeros : Bytes).length = 2 ^ 32 := by
    rw [List.length_append, hlength]
    rfl
  -- a length of 2^32 is written as 0, and one of 2^32 + 16 as 16
  have hzero : leBytes 4 (2 ^ 32) = leBytes 4 0 := by
    rw [← leBytes_mod 4 (2 ^ 32), show 2 ^ 32 % 256 ^ 4 = 0 by norm_num]
  have hsixteen : leBytes 4 (2 ^ 32 + 16) = leBytes 4 16 := by
    rw [← leBytes_mod 4 (2 ^ 32 + 16), show (2 ^ 32 + 16) % 256 ^ 4 = 16 by norm_num]
  have hone : leBytes 8 1 = [1, 0, 0, 0, 0, 0, 0, 0] := by decide
  have hlen : ∀ id : NodeID, (VectorClock.empty.increment id).serialize.length = id.length + 16 := by
    intro id
    rw [hclock]
    simp only [List.length_append, length_leBytes]
    omega
  unfold LWWRegister.serialize
  rw [hlen, hlen, hid, List.length_nil, hsixteen, hclock, hclock, hid, hzero, hone]
  simp only [List.append_assoc, List.nil_append, List.length_nil]

/-- A node whose id is that long stores a register that reads back with a clock of another
node, the one with the empty id. -/
theorem long_id_breaks_clocks :
    ∃ (id : NodeID) (start c : Cluster), start.Fresh ∧ start.nodes.keys = [id] ∧
      (system .stable).run start [.put id 0 [107] [118]] = .ok c ∧
      ∃ node reg, c.nodes.get? id = some node ∧ ZenithDB.StoredIn node.db [107] reg ∧
        ¬ reg.clock ≤ node.db.localClock := by
  -- abstract, so that nothing evaluates its four billion bytes
  obtain ⟨zeros, hzeros⟩ : ∃ zeros : Bytes, zeros = List.replicate (2 ^ 32 - 8) 0 := ⟨_, rfl⟩
  have hlength : zeros.length = 2 ^ 32 - 8 := by rw [hzeros, List.length_replicate]
  obtain ⟨id, hid⟩ : ∃ id : NodeID, id = [1, 0, 0, 0, 0, 0, 0, 0] ++ zeros := ⟨_, rfl⟩
  -- the length of the id wraps to 8, so a counter is read for an empty id
  have hread : LWWRegister.deserialize
      (LWWRegister.serialize ⟨[118], VectorClock.empty.increment id⟩) =
        .ok ⟨zeros ++ (leBytes 8 1 ++ [118]), VectorClock.empty.increment []⟩ := by
    rw [hid, serialize_longId hlength]
    exact LWWRegister.deserialize_serialize
      (show (VectorClock.empty.increment ([] : NodeID)).Encodable by decide)
  let node : Node := Node.fresh id 0 []
  let start : Cluster := ⟨SortedMap.empty.insert id node, [], SortedMap.empty⟩
  have hfresh : start.Fresh := by
    refine ⟨fun e he => ?_, rfl⟩
    rcases SortedMap.mem_insertEntry he with rfl | he
    · exact ⟨0, [], rfl⟩
    · exact absurd he List.not_mem_nil
  -- what the node reads back
  have hget : (node.db.put 0 [107] [118]).getCrdt [107] = .ok (some
      ⟨zeros ++ (leBytes 8 1 ++ [118]), VectorClock.empty.increment []⟩) := by
    have hmem : (node.db.put 0 [107] [118]).lookupMem [107] =
        some (LWWRegister.serialize ⟨[118], VectorClock.empty.increment id⟩) := by
      unfold ZenithDB.put
      rw [ZenithDB.lookupMem_storeRecord _ _ (LWWRegister.serialize_ne_nil _), if_pos rfl]
      rfl
    rw [ZenithDB.getCrdt_of_lookupMem hmem, ZenithDB.readRegister_of_deserialize hread]
    rw [if_neg (by simp)]
  have hput : node.put 0 [107] [118] = .ok ({ node with db := node.db.put 0 [107] [118] }, []) := by
    unfold Node.put
    dsimp only
    rw [hget]
    rfl
  have hnode : start.nodes.get? id = some node := SortedMap.get?_insert_self ..
  have hstep : start.step .stable (.put id 0 [107] [118]) = .ok { start with
      nodes := start.nodes.insert id { node with db := node.db.put 0 [107] [118] } } := by
    show start.atNode id _ = _
    unfold Cluster.atNode
    rw [hnode]
    dsimp only
    rw [hput]
    rfl
  refine ⟨id, start, _, hfresh, rfl, (System.run_cons_ok hstep []).trans rfl,
    { node with db := node.db.put 0 [107] [118] },
    ⟨zeros ++ (leBytes 8 1 ++ [118]), VectorClock.empty.increment []⟩,
    SortedMap.get?_insert_self .., ⟨_, hread, .inl ?_⟩, fun hle => ?_⟩
  · exact ⟨_, List.mem_cons_self .., List.mem_singleton.mpr rfl⟩
  · have hcount : (VectorClock.empty.increment ([] : NodeID)).get [] ≤
        (VectorClock.empty.increment id).get [] := hle []
    have hne : ([] : NodeID) ≠ id := by
      rw [hid]
      exact (List.cons_ne_nil _ _).symm
    rw [get_increment_of_ne _ hne] at hcount
    exact absurd hcount (by decide)

end Cluster

end Zenith
