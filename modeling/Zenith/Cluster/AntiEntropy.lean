import Zenith.Cluster.Transport
import Zenith.DB.Receive

/-!
# Zenith — pairwise anti-entropy

One node scans its database and sends every live register to another node, the messages are
delivered, and the other node answers in the same way. The first pass merges what the sender
reads into what the receiver reads; the merge absorbs the sender's register, so the second
pass leaves both with the same one.

The scan goes from `""` to `"\xFF"`, and there are keys above that: they are not sent. For
all other keys the scan has to show what point reads show, at the sender of the first pass
and, after it, at its receiver. That is a matter of the versions being in order (`Ordered`),
which every write keeps but that of a register over a frozen tombstone it does not displace.
`Orderly` is the condition on a step that leaves this case out, and `Ordered.step` the step
lemma; the result then holds in every state of an orderly run, and not only at its end.

The exchange itself is first a fact about databases (`exchange_agrees`): what one has
received from the other, in both directions. The section on the transport shows that a pass
makes the target receive exactly the rows of the sender's scan, message by message
(`deliver_gossip`), and touches no other node. It starts with an empty queue, as
`anti_entropy_push` followed by a full delivery does in the tests.

Main result: `anti_entropy_converges`.
-/

namespace Zenith

open Bytes

namespace Cluster

variable {ids : List NodeID} {p : Platform} {c : Cluster}

-- ---------------------------------------------------------------------------
-- Versions in order, everywhere
-- ---------------------------------------------------------------------------

/-- The versions of every node are in order, and every message in flight carries a
register that fits. -/
structure Ordered (ids : List NodeID) (c : Cluster) : Prop where
  nodes : ∀ id node, c.nodes.get? id = some node → ZenithDB.Ordered ids node.db
  queue : ∀ msg ∈ c.queue, ZenithDB.Held ids msg.key msg.payload

/-- Local writes do not overflow, and a register that reaches a node displaces the frozen
versions of its key. The condition is about the state before the step: the message that is
about to be delivered, and what its receiver has frozen. -/
def Orderly (ids : List NodeID) (c : Cluster) : Action → Prop
  | .put id usage key value => ∀ node ∈ c.nodes.get? id, ZenithDB.Orderly ids node.db (.put usage key value)
  | .deliver i usage => ∀ msg ∈ c.queue[i]?, ∀ node ∈ c.nodes.get? msg.receiver,
    ∀ incoming, LWWRegister.deserialize msg.payload = .ok incoming →
      ZenithDB.Displacing node.db (.putCrdt usage msg.key incoming)
  | _ => True

/-- The ids of the nodes. -/
def nodeIds (c : Cluster) : List NodeID := c.nodes.keys

theorem ordered_fresh (h : c.Fresh) : c.Ordered c.nodeIds where
  nodes id node hnode := by
    have hmem := SortedMap.get?_eq_some_iff.mp hnode
    obtain ⟨counter, peers, heq⟩ := h.nodes _ hmem
    obtain rfl : node = Node.fresh id counter peers := heq
    exact ZenithDB.ordered_fresh (SortedMap.mem_keys_iff.mpr ⟨_, hnode⟩) counter
  queue msg hmsg := by
    rw [h.queue] at hmsg
    exact absurd hmsg List.not_mem_nil

/-- A method of one node keeps the order when it keeps it at that node. -/
theorem Ordered.atNode (h : c.Ordered ids) {id : NodeID}
    {act : Node → Except Fault (Node × List Message)}
    (hact : ∀ node, ZenithDB.Ordered ids node.db → c.nodes.get? id = some node →
      (act node).Post (fun r => ZenithDB.Ordered ids r.1.db ∧
        ∀ msg ∈ r.2, ZenithDB.Held ids msg.key msg.payload) WriteFailed) :
    (c.atNode id act).Post (Ordered ids) WriteFailed := by
  unfold Cluster.atNode
  cases hnode : c.nodes.get? id with
  | none => exact h
  | some node =>
    apply Except.Post.bind (hact node (h.nodes id node hnode) hnode)
    rintro ⟨node', sent⟩ ⟨hordered, hsent⟩
    refine ⟨fun i n hn => ?_, fun msg hmsg => ?_⟩
    · rw [SortedMap.get?_insert] at hn
      by_cases hi : i = id
      · rw [if_pos hi] at hn
        rw [← Option.some.inj hn]
        exact hordered
      · rw [if_neg hi] at hn
        exact h.nodes i n hn
    · rcases List.mem_append.mp hmsg with hold | hnew
      · exact h.queue msg hold
      · exact hsent msg hnew

/-- A local write pushes the register that it reads back. -/
theorem put_outcome {node : Node} (h : ZenithDB.Ordered ids node.db) {usage : Nat} {key value : Bytes}
    (horderly : ZenithDB.Orderly ids node.db (.put usage key value)) :
    (node.put usage key value).Post (fun r => ZenithDB.Ordered ids r.1.db ∧
      ∀ msg ∈ r.2, ZenithDB.Held ids msg.key msg.payload) WriteFailed := by
  have hordered := h.put usage horderly.1 horderly.2
  obtain ⟨found, hget, hlive⟩ := hordered.readable key
  unfold Node.put
  dsimp only
  rw [hget, Except.ok_bind]
  cases found with
  | none => exact ⟨hordered, fun msg hmsg => absurd hmsg List.not_mem_nil⟩
  | some crdt =>
    refine ⟨hordered, fun msg hmsg => ?_⟩
    obtain ⟨peer, -, rfl⟩ := List.mem_map.mp hmsg
    exact (hlive crdt rfl).held

/-- What anti-entropy sends. -/
def gossip (sender target : NodeID) (rows : List (Bytes × LWWRegister)) : List Message :=
  rows.map fun kv => ⟨.gossip, sender, target, kv.1, kv.2.serialize⟩

theorem triggerAntiEntropy_eq {node : Node} {target : NodeID} {rows : List (Bytes × LWWRegister)}
    (hscan : node.db.scanCrdt p [] [0xFF] = .ok rows) :
    node.triggerAntiEntropy p target = .ok (gossip node.nodeId target rows) := by
  unfold Node.triggerAntiEntropy
  rw [hscan]
  rfl

/-- A delivery to a node that is unknown or partitioned changes nothing; any other is one
`put_crdt` at the receiver. -/
theorem Ordered.deliverMessage (h : c.Ordered ids) {usage : Nat} {msg : Message}
    (hheld : ZenithDB.Held ids msg.key msg.payload)
    (hdisplacing : ∀ node ∈ c.nodes.get? msg.receiver, ∀ incoming,
      LWWRegister.deserialize msg.payload = .ok incoming →
        ZenithDB.Displacing node.db (.putCrdt usage msg.key incoming)) :
    (c.deliverMessage usage msg).Post (Ordered ids) WriteFailed := by
  unfold Cluster.deliverMessage
  cases hnode : c.nodes.get? msg.receiver with
  | none => exact h
  | some node =>
    dsimp only
    split
    · exact h
    · obtain ⟨incoming, hread, -, hids, hfits⟩ := hheld.read
      obtain ⟨db', -, -, hput, hordered⟩ := (h.nodes _ _ hnode).putCrdt usage hids hfits
        (hdisplacing node hnode incoming hread)
      -- both kinds of messages end in the same call
      have hmessage : node.onMessage usage msg = .ok { node with db := db' } := by
        unfold Node.onMessage
        cases msg.type <;> simp only [hread, hput, Except.ok_bind, Except.pure_eq_ok]
      rw [hmessage]
      refine ⟨fun i n hn => ?_, h.queue⟩
      rw [SortedMap.get?_insert] at hn
      by_cases hi : i = msg.receiver
      · rw [if_pos hi] at hn
        rw [← Option.some.inj hn]
        exact hordered
      · rw [if_neg hi] at hn
        exact h.nodes i n hn

/-- **One step** keeps the versions of all nodes in order, or stops at a failed
write. -/
theorem Ordered.step (h : c.Ordered ids) {a : Action} (ha : c.Orderly ids a) :
    (c.step p a).Post (Ordered ids) WriteFailed := by
  have hnothing : ∀ msg ∈ ([] : List Message), ZenithDB.Held ids msg.key msg.payload :=
    fun msg hmsg => absurd hmsg List.not_mem_nil
  cases a with
  | put id usage key value =>
    exact h.atNode fun node hordered hnode => put_outcome hordered (ha node hnode)
  -- what is sent comes from a scan, whose rows are live registers that fit
  | triggerAntiEntropy id target =>
    refine h.atNode fun node hordered _ => ?_
    obtain ⟨rows, hscan, -⟩ := hordered.scan p [] [0xFF]
    rw [triggerAntiEntropy_eq hscan]
    refine ⟨hordered, fun msg hmsg => ?_⟩
    obtain ⟨kv, hkv, rfl⟩ := List.mem_map.mp hmsg
    exact (hordered.scan_live hscan kv hkv).held
  | deliver i usage =>
    unfold Cluster.step
    dsimp only
    cases hmsg : c.queue[i]? with
    | none => exact h
    | some msg => exact h.deliverMessage (h.queue msg (List.mem_of_getElem? hmsg)) (ha msg hmsg)
  -- losing a message leaves fewer of them
  | lose i => exact ⟨h.nodes, fun msg hmsg => h.queue msg (List.mem_of_mem_eraseIdx hmsg)⟩
  | addPeer id peer =>
    refine h.atNode fun node hordered _ => ⟨?_, hnothing⟩
    show ZenithDB.Ordered ids (node.addPeer peer).db
    unfold Node.addPeer
    split <;> exact hordered
  | partition id isPartitioned => exact ⟨h.nodes, h.queue⟩
  | work id time =>
    refine h.atNode fun node hordered _ => ?_
    apply Except.Post.bind (hordered.work p time)
    intro db' hdb'
    exact ⟨hdb', hnothing⟩
  | otherNames id n =>
    exact h.atNode fun node hordered _ => ⟨hordered.step p (a := .otherNames n) trivial, hnothing⟩

-- ---------------------------------------------------------------------------
-- Exchanging registers
-- ---------------------------------------------------------------------------

/-- Two reads that no client can tell apart. Clocks may differ in counters that are zero,
since an absent counter reads as zero. -/
def SameRead : Option LWWRegister → Option LWWRegister → Prop
  | none, none => True
  | some r, some s => r.Same s
  | _, _ => False

/-- A scan of all that anti-entropy sends shows what point reads show, in both directions:
no row is made up, and no live register is left out. -/
structure Shows (rows : List (Bytes × LWWRegister)) (db : ZenithDB) : Prop where
  row : ∀ key r, (key, r) ∈ rows → key ≤ [0xFF] ∧ ∃ v, db.getCrdt key = .ok (some v) ∧ v.Same r
  live : ∀ key v, key ≤ [0xFF] → db.getCrdt key = .ok (some v) → ∃ r, (key, r) ∈ rows ∧ v.Same r

/-- What a database does not read it does not send. -/
theorem Shows.not_mem {rows : List (Bytes × LWWRegister)} {db : ZenithDB} (h : Shows rows db)
    {key : Bytes} (hget : db.getCrdt key = .ok none) (r : LWWRegister) : (key, r) ∉ rows := by
  intro hmem
  obtain ⟨-, v, hv, -⟩ := h.row key r hmem
  rw [hget] at hv
  exact absurd (Except.ok.inj hv) (by simp)

/-- **Two passes.** `b` has received what `a` sends, and then `a` what `b` sends: they read
the same. By cases on what each of them read before. -/
theorem exchange_agrees {a b a' b' : ZenithDB} {rows answer : List (Bytes × LWWRegister)}
    (ha : ZenithDB.Readable ids a) (hb : ZenithDB.Readable ids b) (hsent : Shows rows a)
    (hfirst : ZenithDB.Received rows b b') (hanswer : Shows answer b')
    (hsecond : ZenithDB.Received answer a a') {key : Bytes} (hkey : key ≤ [0xFF]) :
    ∃ x y, a'.getCrdt key = .ok x ∧ b'.getCrdt key = .ok y ∧ SameRead x y := by
  obtain ⟨x, hx, -⟩ := ha key
  obtain ⟨y, hy, -⟩ := hb key
  cases x with
  | none =>
    -- `a` has nothing to send for the key, so the register of `b` is what both end with
    have hb' := hfirst.other key (hsent.not_mem hx)
    rw [hy] at hb'
    cases y with
    | none =>
      have ha' := hsecond.other key (hanswer.not_mem hb')
      rw [hx] at ha'
      exact ⟨none, none, ha', hb', trivial⟩
    | some w =>
      obtain ⟨s, hs, hsame⟩ := hanswer.live key w hkey hb'
      exact ⟨_, _, hsecond.row key s none hs hx, hb', hsame.symm⟩
  | some v =>
    obtain ⟨r, hr, hvr⟩ := hsent.live key v hkey hx
    have hb' := hfirst.row key r y hr hy
    -- the receiver's register absorbs the one it was sent
    have habsorbs : (ZenithDB.resolve r y).Absorbs r := by
      cases y with
      | none => exact .refl r
      | some w => exact LWWRegister.merge_absorbs_left r w
    obtain ⟨s, hs, hsame⟩ := hanswer.live key _ hkey hb'
    have ha' := hsecond.row key s _ hs hx
    exact ⟨_, _, ha', hb', ((habsorbs.congr hsame hvr.symm).merge_left).trans hsame.symm⟩

-- ---------------------------------------------------------------------------
-- Passes over the transport
-- ---------------------------------------------------------------------------

/-- One pass of anti-entropy: the sender's messages are put in the queue, and the queue is
emptied. -/
def push (p : Platform) (c : Cluster) (sender target : NodeID) (usage : Nat → Nat) :
    Except Fault Cluster := do
  let c ← c.step p (.triggerAntiEntropy sender target)
  c.deliverAll usage

/-- A pass and the answer to it. -/
def sync (p : Platform) (c : Cluster) (A B : NodeID) (usage usage' : Nat → Nat) :
    Except Fault Cluster := do
  let c ← c.push p A B usage
  c.push p B A usage'

/-- Only the node `target` is another one. -/
structure Replaced (c c' : Cluster) (target : NodeID) (node : Node) : Prop where
  changed : c'.nodes.get? target = some node
  others : ∀ id, id ≠ target → c'.nodes.get? id = c.nodes.get? id
  queue : c'.queue = c.queue
  partitioned : c'.partitioned = c.partitioned

/-- Delivering gossip makes the receiver's database run the receipts, by induction on
the messages. -/
theorem deliver_gossip (sender : NodeID) {target : NodeID} (usage : Nat → Nat)
    {rows : List (Bytes × LWWRegister)} (hrows : ∀ kv ∈ rows, ZenithDB.Live ids kv.1 kv.2)
    (first : Nat) {node : Node} (hnode : c.nodes.get? target = some node)
    (hpart : c.partitioned.get? target ≠ some true) {db' : ZenithDB}
    (hrun : (ZenithDB.system p).run node.db (ZenithDB.receipts usage first rows) = .ok db') :
    ∃ c', ((gossip sender target rows).zipIdx first).foldlM
        (fun c m => c.deliverMessage (usage m.2) m.1) c = .ok c' ∧
      c.Replaced c' target { node with db := db' } := by
  induction rows generalizing c first node with
  | nil =>
    obtain rfl := Except.ok.inj hrun
    exact ⟨c, rfl, hnode, fun _ _ => rfl, rfl, rfl⟩
  | cons kv rows ih =>
    obtain ⟨d, hput, hrest⟩ := System.run_cons_eq_ok hrun
    have hread := (hrows kv (List.mem_cons_self ..)).read
    -- the first message, as one `put_crdt` at the target
    have hdeliver : c.deliverMessage (usage first) ⟨.gossip, sender, target, kv.1, kv.2.serialize⟩ =
        .ok { c with nodes := c.nodes.insert target { node with db := d } } := by
      have hmessage : node.onMessage (usage first)
          ⟨.gossip, sender, target, kv.1, kv.2.serialize⟩ = .ok { node with db := d } := by
        unfold Node.onMessage
        dsimp only
        rw [hread, Except.ok_bind]
        exact Except.bind_eq_ok_iff.mpr ⟨d, hput, rfl⟩
      unfold Cluster.deliverMessage
      dsimp only
      rw [hnode]
      dsimp only
      rw [if_neg hpart, hmessage]
      rfl
    -- the others, by induction, from the database it leaves
    obtain ⟨c', hfold, hreplaced⟩ := ih
      (c := { c with nodes := c.nodes.insert target { node with db := d } })
      (fun e he => hrows e (List.mem_cons_of_mem _ he)) (first + 1)
      (SortedMap.get?_insert_self ..) hpart hrest
    refine ⟨c', ?_, hreplaced.changed, fun id hid => ?_, hreplaced.queue, hreplaced.partitioned⟩
    · show List.foldlM _ c ((⟨.gossip, sender, target, kv.1, kv.2.serialize⟩, first) ::
        (gossip sender target rows).zipIdx (first + 1)) = _
      rw [List.foldlM_cons, hdeliver, Except.ok_bind, hfold]
    · rw [hreplaced.others id hid, SortedMap.get?_insert, if_neg hid]

/-- **One pass** replaces the target's database by what it is after receiving the
sender's rows. -/
theorem push_spec {sender target : NodeID} {usage : Nat → Nat} {a b : Node}
    (ha : c.nodes.get? sender = some a) (hb : c.nodes.get? target = some b) (hqueue : c.queue = [])
    (hpart : c.partitioned.get? target ≠ some true) {rows : List (Bytes × LWWRegister)}
    (hscan : a.db.scanCrdt p [] [0xFF] = .ok rows)
    (hrows : ∀ kv ∈ rows, ZenithDB.Live ids kv.1 kv.2) {db' : ZenithDB}
    (hrun : (ZenithDB.system p).run b.db (ZenithDB.receipts usage 0 rows) = .ok db') :
    ∃ c', c.push p sender target usage = .ok c' ∧ c.Replaced c' target { b with db := db' } := by
  -- the sender only reads, so it goes back into the cluster as it was
  have hsame : c.nodes.insert sender a = c.nodes := by
    apply SortedMap.ext_get?
    intro id
    rw [SortedMap.get?_insert]
    split
    · next heq => rw [heq, ha]
    · rfl
  have htrigger : c.step p (.triggerAntiEntropy sender target) =
      .ok { c with queue := gossip a.nodeId target rows } := by
    show c.atNode sender _ = _
    unfold Cluster.atNode
    rw [ha]
    dsimp only
    rw [triggerAntiEntropy_eq hscan]
    show Except.ok { c with
      nodes := c.nodes.insert sender a, queue := c.queue ++ gossip a.nodeId target rows } = _
    rw [hsame, hqueue, List.nil_append]
  -- what the pass queued is handled in the order it was sent
  obtain ⟨c', hfold, hreplaced⟩ := deliver_gossip a.nodeId
    (c := { c with queue := [] }) usage hrows 0 hb hpart hrun
  refine ⟨c', ?_, hreplaced.changed, hreplaced.others, ?_, hreplaced.partitioned⟩
  · unfold Cluster.push
    rw [htrigger]
    exact hfold
  · rw [hreplaced.queue, hqueue]

-- ---------------------------------------------------------------------------
-- Convergence
-- ---------------------------------------------------------------------------

/-- Both nodes read the same for a key. -/
def ConvergedOn (c : Cluster) (A B : NodeID) (key : Bytes) : Prop :=
  ∃ a ∈ c.nodes.get? A, ∃ b ∈ c.nodes.get? B, ∃ x, a.db.getCrdt key = .ok x ∧
    ∃ y, b.db.getCrdt key = .ok y ∧ SameRead x y

theorem convergedOn_iff {A B : NodeID} {a b : Node} (ha : c.nodes.get? A = some a)
    (hb : c.nodes.get? B = some b) {key : Bytes} :
    c.ConvergedOn A B key ↔
      ∃ x y, a.db.getCrdt key = .ok x ∧ b.db.getCrdt key = .ok y ∧ SameRead x y := by
  constructor
  · rintro ⟨a', ha', b', hb', x, hx, y, hy, hsame⟩
    obtain rfl := Option.some.inj (ha.symm.trans ha')
    obtain rfl := Option.some.inj (hb.symm.trans hb')
    exact ⟨x, y, hx, hy, hsame⟩
  · rintro ⟨x, y, hx, hy, hsame⟩
    exact ⟨a, ha, b, hb, x, hx, y, hy, hsame⟩

theorem shows_of_ordered {db : ZenithDB} (h : ZenithDB.Ordered ids db) (p : Platform) :
    ∃ rows, db.scanCrdt p [] [0xFF] = .ok rows ∧ (rows.map Prod.fst).Nodup ∧ Shows rows db := by
  obtain ⟨rows, hscan, hascending, hrow, hlive⟩ := h.scan p [] [0xFF]
  refine ⟨rows, hscan, hascending.imp fun hlt => hlt.ne, ?_, ?_⟩
  · intro key r hmem
    obtain ⟨-, hstop, v, hv⟩ := hrow key r hmem
    exact ⟨hstop, v, hv⟩
  · intro key v hstop hv
    exact hlive key v (not_lt.mp (List.not_lt_nil key)) hstop hv

/-- **Pairwise anti-entropy.** In every state that a cluster of fresh nodes reaches by
orderly steps, with nothing in flight and both nodes reachable, two passes succeed, and
afterwards the nodes agree on all keys exactly if they agreed before on those above
`"\xFF"`. What the end of the scan leaves out is those keys; nothing else that a node shows
is lost on the way.

Hypotheses:
* `hfresh`, `hrun` — the state is one that a run from empty directories reaches;
* `horderly` — on the way local writes fit and do not wrap the counter, and what is
  delivered displaces the frozen versions of its key;
* `hne`, `ha`, `hb` — `A` and `B` are two nodes of the cluster;
* `hqueue`, `hpartA`, `hpartB` — nothing else is delivered between the passes, and neither
  node is partitioned off;
* `hdisplacing` — what `A` sends displaces the frozen versions at `B`, which is scanned
  next. Of the way back nothing is asked: `A` is only read key by key after it. -/
theorem anti_entropy_converges {start : Cluster} {as : List Action} (hfresh : start.Fresh)
    (hrun : (system p).run start as = .ok c)
    (horderly : (system p).Along (fun _ => Orderly start.nodeIds) [] start as)
    {A B : NodeID} {a b : Node} (hne : A ≠ B) (ha : c.nodes.get? A = some a)
    (hb : c.nodes.get? B = some b) (hqueue : c.queue = [])
    (hpartA : c.partitioned.get? A ≠ some true) (hpartB : c.partitioned.get? B ≠ some true)
    (usage usage' : Nat → Nat)
    (hdisplacing : ∀ rows, a.db.scanCrdt p [] [0xFF] = .ok rows →
      (ZenithDB.system p).Along (fun _ => ZenithDB.Displacing) [] b.db
        (ZenithDB.receipts usage 0 rows)) :
    ∃ c', c.sync p A B usage usage' = .ok c' ∧
      ((∀ key, c'.ConvergedOn A B key) ↔ ∀ key, [0xFF] < key → c.ConvergedOn A B key) := by
  have hordered : c.Ordered start.nodeIds :=
    System.run_invariant (P := fun _ => Ordered start.nodeIds)
      (fun tr s act s' h hcond hstep => (h.step hcond).result hstep)
      (ordered_fresh hfresh) horderly hrun
  have haordered := hordered.nodes A a ha
  have hbordered := hordered.nodes B b hb
  -- the first pass: `b` becomes `b'`
  obtain ⟨rows, hscan, hnodup, hshows⟩ := shows_of_ordered haordered p
  have hrows := haordered.scan_live hscan
  obtain ⟨b', hrunb, hfirst⟩ := hbordered.readable.receive p usage hrows hnodup 0
  have hbordered' := hbordered.receive p usage hrows 0 (hdisplacing rows hscan) hrunb
  obtain ⟨c₁, hpush, hreplaced⟩ := push_spec ha hb hqueue hpartB hscan hrows hrunb
  -- the second pass: `a` becomes `a'`
  obtain ⟨answer, hscan', hnodup', hanswer⟩ := shows_of_ordered hbordered' p
  have hrows' := hbordered'.scan_live hscan'
  obtain ⟨a', hruna, hsecond⟩ := haordered.readable.receive p usage' hrows' hnodup' 0
  have ha₁ : c₁.nodes.get? A = some a := (hreplaced.others A hne).trans ha
  obtain ⟨c₂, hpush', hreplaced'⟩ := push_spec hreplaced.changed ha₁
    (hreplaced.queue.trans hqueue) (by rwa [hreplaced.partitioned]) hscan' hrows' hruna
  have hb₂ := (hreplaced'.others B hne.symm).trans hreplaced.changed
  refine ⟨c₂, ?_, ?_⟩
  · unfold Cluster.sync
    rw [hpush, Except.ok_bind, hpush']
  · -- neither pass touches a key above the scan
    have habove : ∀ key, [0xFF] < key → a'.getCrdt key = a.db.getCrdt key ∧
        b'.getCrdt key = b.db.getCrdt key := by
      intro key hkey
      refine ⟨hsecond.other key fun r hr => ?_, hfirst.other key fun r hr => ?_⟩
      · exact absurd (hanswer.row key r hr).1 hkey.not_ge
      · exact absurd (hshows.row key r hr).1 hkey.not_ge
    constructor
    · intro h key hkey
      obtain ⟨x, y, hx, hy, hsame⟩ := (convergedOn_iff hreplaced'.changed hb₂).mp (h key)
      obtain ⟨ha', hb'⟩ := habove key hkey
      exact (convergedOn_iff ha hb).mpr ⟨x, y, ha'.symm.trans hx, hb'.symm.trans hy, hsame⟩
    · intro h key
      refine (convergedOn_iff hreplaced'.changed hb₂).mpr ?_
      rcases le_or_gt key [0xFF] with hkey | hkey
      · exact exchange_agrees haordered.readable hbordered.readable hshows hfirst hanswer hsecond hkey
      · obtain ⟨x, y, hx, hy, hsame⟩ := (convergedOn_iff ha hb).mp (h key hkey)
        obtain ⟨ha', hb'⟩ := habove key hkey
        exact ⟨x, y, ha'.trans hx, hb'.trans hy, hsame⟩

-- ---------------------------------------------------------------------------
-- Checking runs
-- ---------------------------------------------------------------------------

instance : ∀ x y, Decidable (SameRead x y)
  | none, none => isTrue trivial
  | some r, some s => inferInstanceAs (Decidable (r.Same s))
  | none, some _ => isFalse id
  | some _, none => isFalse id

instance (c : Cluster) (A B : NodeID) (key : Bytes) : Decidable (c.ConvergedOn A B key) :=
  inferInstanceAs (Decidable (∃ a ∈ c.nodes.get? A, ∃ b ∈ c.nodes.get? B,
    ∃ x, a.db.getCrdt key = .ok x ∧ ∃ y, b.db.getCrdt key = .ok y ∧ SameRead x y))

instance (ids : List NodeID) (c : Cluster) : ∀ a, Decidable (Orderly ids c a)
  | .put id usage key value => inferInstanceAs (Decidable (∀ node ∈ c.nodes.get? id,
      ZenithDB.Orderly ids node.db (.put usage key value)))
  | .deliver i usage => inferInstanceAs (Decidable (∀ msg ∈ c.queue[i]?,
      ∀ node ∈ c.nodes.get? msg.receiver, ∀ incoming,
        LWWRegister.deserialize msg.payload = .ok incoming →
          ZenithDB.Displacing node.db (.putCrdt usage msg.key incoming)))
  | .triggerAntiEntropy _ _ => isTrue trivial
  | .lose _ => isTrue trivial
  | .addPeer _ _ => isTrue trivial
  | .partition _ _ => isTrue trivial
  | .work _ _ => isTrue trivial
  | .otherNames _ _ => isTrue trivial

/-- Concurrent writes of one key. -/
theorem anti_entropy_of_concurrent_writes :
    ∃ c c', (system .stable).run strangers [.put [65] 0 [107] [118], .put [66] 0 [107] [119]] =
        .ok c ∧ c.sync .stable [65] [66] (fun _ => 0) (fun _ => 0) = .ok c' ∧
      ((∀ key, c'.ConvergedOn [65] [66] key) ↔
        ∀ key, [0xFF] < key → c.ConvergedOn [65] [66] key) := by
  obtain ⟨c, hrun⟩ := Except.exists_eq_ok (x := (system .stable).run strangers
    [.put [65] 0 [107] [118], .put [66] 0 [107] [119]]) (by decide +kernel)
  have hstate : ∀ c, (system .stable).run strangers
      [.put [65] 0 [107] [118], .put [66] 0 [107] [119]] = .ok c →
        (c.nodes.get? [65]).isSome ∧ (c.nodes.get? [66]).isSome ∧ c.queue = [] ∧
        c.partitioned.get? [65] ≠ some true ∧ c.partitioned.get? [66] ≠ some true := by
    decide +kernel
  have hdisplacing : ∀ c, (system .stable).run strangers
      [.put [65] 0 [107] [118], .put [66] 0 [107] [119]] = .ok c →
        ∀ a ∈ c.nodes.get? [65], ∀ b ∈ c.nodes.get? [66], ∀ rows,
          a.db.scanCrdt .stable [] [0xFF] = .ok rows →
          (ZenithDB.system .stable).Along (fun _ => ZenithDB.Displacing) [] b.db
            (ZenithDB.receipts (fun _ => 0) 0 rows) := by
    decide +kernel
  obtain ⟨ha, hb, hqueue, hpartA, hpartB⟩ := hstate c hrun
  obtain ⟨a, ha⟩ := Option.isSome_iff_exists.mp ha
  obtain ⟨b, hb⟩ := Option.isSome_iff_exists.mp hb
  obtain ⟨c', hsync, hiff⟩ := anti_entropy_converges fresh_strangers hrun (by decide +kernel)
    (by decide) ha hb hqueue hpartA hpartB (fun _ => 0) (fun _ => 0) (hdisplacing c hrun a ha b hb)
  exact ⟨c, c', hrun, hsync, hiff⟩

/-- A key above the scan: after both passes only its writer can read it. -/
theorem anti_entropy_misses_key :
    strangers.Fresh ∧
      ∃ c, (system .stable).run strangers [.put [65] 0 [0xFF, 0] [118]] = .ok c ∧ c.queue = [] ∧
        ∃ c', c.sync .stable [65] [66] (fun _ => 0) (fun _ => 0) = .ok c' ∧
          ¬ c'.ConvergedOn [65] [66] [0xFF, 0] :=
  ⟨fresh_strangers, by decide +kernel⟩

end Cluster

end Zenith
