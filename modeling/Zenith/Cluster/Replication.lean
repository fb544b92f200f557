import Zenith.Cluster.AntiEntropy

/-!
# Zenith — eager replication

`Node::Put` writes locally, reads the register back and pushes what it reads to the peers. A
read hides a tombstone, so a delete is pushed to nobody: the peers go on returning the value
that was deleted.

A live value is pushed, and a peer returns it afterwards if it wins the merge with the
register that the peer holds. It does when the local clock is above that register, which
only a restart can undo; otherwise the values decide. `Wins` is this condition, and
`value_merge_eq_left_iff` the fact about merges behind it.

The state before the put is any state with nothing in flight, in which the node and its
reachable peers read the same register for the key. So the result is not about fresh
clusters only; it applies after any history, including one with restarts. Peers may be
listed several times, and a node may be its own receiver through others, which is why the
messages are followed by an induction on the list of peers (`deliver_pushes`): a register
that arrives again is absorbed by what its first copy left.

Main result: `put_reaches_peers`.
-/

namespace Zenith

open Bytes VectorClock

/-- When the left side of a merge keeps its value. -/
theorem LWWRegister.value_merge_eq_left_iff (r o : LWWRegister) :
    (r.merge o).value = r.value ↔
      o.clock ≤ r.clock ∨ o.value = r.value ∨ ¬ r.clock ≤ o.clock ∧ o.value ≤ r.value := by
  by_cases hle : o.clock ≤ r.clock
  · simp [merge_of_le hle, hle]
  · by_cases hge : r.clock ≤ o.clock
    · rw [merge_of_lt (lt_of_le_not_ge hge hle)]
      simp [hle, hge]
    · -- concurrent registers: the larger value
      rw [merge_of_concurrent hge hle]
      simp only [hle, hge, false_or, not_false_eq_true, true_and]
      constructor
      · intro hmax
        exact .inr (hmax ▸ le_max_right r.value o.value)
      · rintro (heq | hvalue)
        · rw [heq, max_self]
        · exact max_eq_left hvalue

namespace Cluster

variable {ids : List NodeID} {p : Platform} {c : Cluster} {key : Bytes}

/-- One message with a register for the key. The receiver reads the merge afterwards. -/
theorem deliver_put {r : LWWRegister} (hr : ZenithDB.Live ids key r) (sender : NodeID) {peer : NodeID}
    {node : Node} (hnode : c.nodes.get? peer = some node)
    (hpart : c.partitioned.get? peer ≠ some true) {y : Option LWWRegister}
    (hy : node.db.getCrdt key = .ok y) (hlive : ∀ v ∈ y, ZenithDB.Live ids key v) (usage : Nat) :
    ∃ db', c.deliverMessage usage ⟨.put, sender, peer, key, r.serialize⟩ =
        .ok { c with nodes := c.nodes.insert peer { node with db := db' } } ∧
      db'.getCrdt key = .ok (some (ZenithDB.resolve r y)) := by
  obtain ⟨db', hput⟩ := ZenithDB.putCrdt_ok hy usage r
  refine ⟨db', ?_, ?_⟩
  · unfold Cluster.deliverMessage Node.onMessage
    dsimp only
    rw [hnode]
    dsimp only
    rw [if_neg hpart, hr.read, Except.ok_bind, hput]
    rfl
  · have hmerged := hr.resolve hlive
    rw [ZenithDB.getCrdt_putCrdt hy hput, ZenithDB.readRegister_of_deserialize hmerged.read,
      if_neg hmerged.value]

/-- The messages that push a register to these peers. -/
def pushes (sender : NodeID) (key : Bytes) (r : LWWRegister) (peers : List NodeID) : List Message :=
  peers.map fun peer => ⟨.put, sender, peer, key, r.serialize⟩

/-- The peers that can be reached read the register merged into what they read before,
and no other node has changed. -/
def Pushed (key : Bytes) (r : LWWRegister) (peers : List NodeID) (c c' : Cluster) : Prop :=
  ∀ id node, c.nodes.get? id = some node → ∃ node', c'.nodes.get? id = some node' ∧
    (id ∈ peers → c.partitioned.get? id ≠ some true → ∀ y, node.db.getCrdt key = .ok y →
      ∃ w, node'.db.getCrdt key = .ok (some w) ∧ w.Same (ZenithDB.resolve r y)) ∧
    (id ∉ peers ∨ c.partitioned.get? id = some true → node' = node)

/-- A peer that cannot be reached makes no difference, and neither does one that does not
exist. -/
theorem Pushed.cons_dropped {r : LWWRegister} {peer : NodeID} {peers : List NodeID} {c' : Cluster}
    (h : Pushed key r peers c c')
    (hpart : ∀ node, c.nodes.get? peer = some node → c.partitioned.get? peer = some true) :
    Pushed key r (peer :: peers) c c' := by
  intro id node hnode
  obtain ⟨node', hnode', hpushed, hsame⟩ := h id node hnode
  refine ⟨node', hnode', fun hid hreach => ?_, fun hkept => hsame (hkept.imp_left fun hid hmem =>
    hid (List.mem_cons_of_mem _ hmem))⟩
  rcases List.mem_cons.mp hid with rfl | hid
  · exact absurd (hpart node hnode) hreach
  · exact hpushed hid hreach

/-- A peer that is reached. When the register comes to it again, the first copy is
absorbed. -/
theorem Pushed.cons_delivered {r : LWWRegister} {peer : NodeID} {peers : List NodeID} {c' : Cluster}
    {node : Node} (hnode : c.nodes.get? peer = some node)
    (hpart : c.partitioned.get? peer ≠ some true) {y : Option LWWRegister}
    (hy : node.db.getCrdt key = .ok y) {db' : ZenithDB}
    (hdb' : db'.getCrdt key = .ok (some (ZenithDB.resolve r y)))
    (h : Pushed key r peers { c with nodes := c.nodes.insert peer { node with db := db' } } c') :
    Pushed key r (peer :: peers) c c' := by
  intro id n hn
  -- the peer that got the message, and the others, which the message does not reach
  by_cases heq : id = peer
  · subst heq
    obtain rfl := Option.some.inj (hnode.symm.trans hn)
    obtain ⟨node', hnode', hpushed, hsame⟩ := h id _ (SortedMap.get?_insert_self ..)
    refine ⟨node', hnode', fun _ _ x hx => ?_, fun hkept => ?_⟩
    · obtain rfl := Except.ok.inj (hy.symm.trans hx)
      by_cases hid : id ∈ peers
      · obtain ⟨w, hw, hwsame⟩ := hpushed hid hpart _ hdb'
        refine ⟨w, hw, hwsame.trans (LWWRegister.Absorbs.merge_right ?_)⟩
        cases y with
        | none => exact .refl r
        | some v => exact LWWRegister.merge_absorbs_left r v
      · rw [hsame (.inl hid)]
        exact ⟨_, hdb', .refl _⟩
    · rcases hkept with hid | hdrop
      · exact absurd (List.mem_cons_self ..) hid
      · exact absurd hdrop hpart
  · have hget : (c.nodes.insert peer { node with db := db' }).get? id = some n := by
      rw [SortedMap.get?_insert, if_neg heq, hn]
    obtain ⟨node', hnode', hpushed, hsame⟩ := h id n hget
    refine ⟨node', hnode', fun hid => hpushed ?_, fun hkept => hsame (hkept.imp_left fun hid hmem =>
      hid (List.mem_cons_of_mem _ hmem))⟩
    exact (List.mem_cons.mp hid).resolve_left heq

/-- **Pushing a register**, by induction on the peers. -/
theorem deliver_pushes {r : LWWRegister} (hr : ZenithDB.Live ids key r) (sender : NodeID)
    (usage : Nat → Nat) (peers : List NodeID) (first : Nat)
    (hread : ∀ id ∈ peers, ∀ node, c.nodes.get? id = some node →
      c.partitioned.get? id ≠ some true →
        ∃ y, node.db.getCrdt key = .ok y ∧ ∀ v ∈ y, ZenithDB.Live ids key v) :
    ∃ c', ((pushes sender key r peers).zipIdx first).foldlM
        (fun c m => c.deliverMessage (usage m.2) m.1) c = .ok c' ∧ Pushed key r peers c c' := by
  induction peers generalizing c first with
  | nil =>
    exact ⟨c, rfl, fun id node hnode => ⟨node, hnode, fun hid => absurd hid List.not_mem_nil,
      fun _ => rfl⟩⟩
  | cons peer peers ih =>
    -- the first message, then the others
    have hfold : ∀ c₁,
        c.deliverMessage (usage first) ⟨.put, sender, peer, key, r.serialize⟩ = .ok c₁ →
        ((pushes sender key r (peer :: peers)).zipIdx first).foldlM
          (fun c m => c.deliverMessage (usage m.2) m.1) c =
        ((pushes sender key r peers).zipIdx (first + 1)).foldlM
          (fun c m => c.deliverMessage (usage m.2) m.1) c₁ := by
      intro c₁ hdeliver
      show List.foldlM _ c ((⟨.put, sender, peer, key, r.serialize⟩, first) ::
        (pushes sender key r peers).zipIdx (first + 1)) = _
      rw [List.foldlM_cons, hdeliver, Except.ok_bind]
    -- a message that changes nothing
    have hdropped : (∀ node, c.nodes.get? peer = some node → c.partitioned.get? peer = some true) →
        c.deliverMessage (usage first) ⟨.put, sender, peer, key, r.serialize⟩ = .ok c →
        ∃ c', ((pushes sender key r (peer :: peers)).zipIdx first).foldlM
          (fun c m => c.deliverMessage (usage m.2) m.1) c = .ok c' ∧
            Pushed key r (peer :: peers) c c' := by
      intro hpart hdeliver
      obtain ⟨c', hrun, hpushed⟩ := ih (first + 1) fun id hid => hread id (List.mem_cons_of_mem _ hid)
      exact ⟨c', (hfold c hdeliver).trans hrun, hpushed.cons_dropped hpart⟩
    cases hnode : c.nodes.get? peer with
    | none =>
      refine hdropped (fun node hn => absurd (hnode.symm.trans hn) (by simp)) ?_
      unfold Cluster.deliverMessage
      rw [hnode]
    | some node =>
      by_cases hpart : c.partitioned.get? peer = some true
      · refine hdropped (fun _ _ => hpart) ?_
        unfold Cluster.deliverMessage
        rw [hnode]
        exact if_pos hpart
      · -- a put: the replica holds the merge, and the other peers are as they were
        obtain ⟨y, hy, hlive⟩ := hread peer (List.mem_cons_self ..) node hnode hpart
        obtain ⟨db', hdeliver, hdb'⟩ := deliver_put hr sender hnode hpart hy hlive (usage first)
        obtain ⟨c', hrun, hpushed⟩ := ih
          (c := { c with nodes := c.nodes.insert peer { node with db := db' } }) (first + 1) (by
            intro id hid n hn hreach
            rw [SortedMap.get?_insert] at hn
            by_cases heq : id = peer
            · rw [if_pos heq] at hn
              obtain rfl := Option.some.inj hn
              refine ⟨_, hdb', fun v hv => ?_⟩
              obtain rfl := Option.some.inj hv
              exact hr.resolve hlive
            · rw [if_neg heq] at hn
              exact hread id (List.mem_cons_of_mem _ hid) n hn hreach)
        exact ⟨c', (hfold _ hdeliver).trans hrun, hpushed.cons_delivered hnode hpart hy hdb'⟩

-- ---------------------------------------------------------------------------
-- A put and its delivery
-- ---------------------------------------------------------------------------

/-- Another node that is a peer and can be reached. -/
def Reaches (c : Cluster) (A : NodeID) (a : Node) (peer : NodeID) (b : Node) : Prop :=
  peer ∈ a.peers ∧ peer ≠ A ∧ c.nodes.get? peer = some b ∧ c.partitioned.get? peer ≠ some true

/-- `A.Put(key, value)` and `DeliverAll`. -/
def replicate (p : Platform) (c : Cluster) (A : NodeID) (usage : Nat) (key value : Bytes)
    (usage' : Nat → Nat) : Except Fault Cluster := do
  let c ← c.step p (.put A usage key value)
  c.deliverAll usage'

/-- Both nodes return the same value. -/
def GetsSame (c : Cluster) (A B : NodeID) (key : Bytes) : Prop :=
  ∃ a ∈ c.nodes.get? A, ∃ b ∈ c.nodes.get? B, ∃ v, a.db.get key = .ok v ∧ b.db.get key = .ok v

theorem getsSame_iff {A B : NodeID} {a b : Node} (ha : c.nodes.get? A = some a)
    (hb : c.nodes.get? B = some b) {x y : Option LWWRegister} (hx : a.db.getCrdt key = .ok x)
    (hy : b.db.getCrdt key = .ok y) :
    c.GetsSame A B key ↔ x.map (·.value) = y.map (·.value) := by
  have hgetA : a.db.get key = .ok (x.map (·.value)) := by
    unfold ZenithDB.get
    rw [hx]
    rfl
  have hgetB : b.db.get key = .ok (y.map (·.value)) := by
    unfold ZenithDB.get
    rw [hy]
    rfl
  constructor
  · rintro ⟨a', ha', b', hb', v, hv, hv'⟩
    obtain rfl := Option.some.inj (ha.symm.trans ha')
    obtain rfl := Option.some.inj (hb.symm.trans hb')
    rw [hgetA] at hv
    rw [hgetB] at hv'
    rw [Except.ok.inj hv, Except.ok.inj hv']
  · intro h
    exact ⟨a, ha, b, hb, _, hgetA, by rw [hgetB, h]⟩

/-- What a register that is written leaves of the registers that the peers hold. -/
def Wins (value : Bytes) (clock : VectorClock) (v : LWWRegister) : Prop :=
  v.clock ≤ clock ∨ v.value = value ∨ ¬ clock ≤ v.clock ∧ v.value ≤ value

theorem value_resolve_eq_iff {r : LWWRegister} {x y : Option LWWRegister} (hxy : SameRead x y) :
    (ZenithDB.resolve r y).value = r.value ↔ ∀ v ∈ x, Wins r.value r.clock v := by
  match x, y, hxy with
  | none, none, _ => simp [ZenithDB.resolve]
  | some v, some w, hsame =>
    have hle : w.clock ≤ r.clock ↔ v.clock ≤ r.clock :=
      ⟨fun h => LWWRegister.Same.le hsame |>.trans h, fun h => (LWWRegister.Same.symm hsame).le.trans h⟩
    have hge : r.clock ≤ w.clock ↔ r.clock ≤ v.clock :=
      ⟨fun h => h.trans (LWWRegister.Same.symm hsame).le, fun h => h.trans (LWWRegister.Same.le hsame)⟩
    show (r.merge w).value = r.value ↔ _
    rw [LWWRegister.value_merge_eq_left_iff, hle, hge, ← hsame.1]
    simp [Wins]

/-- The write of a put, delivered to nobody yet. -/
theorem step_put {A : NodeID} {a : Node} (ha : c.nodes.get? A = some a) (hqueue : c.queue = [])
    {usage : Nat} {value : Bytes} {a' : Node} {sent : List Message}
    (hput : a.put usage key value = .ok (a', sent)) :
    c.step p (.put A usage key value) =
      .ok { c with nodes := c.nodes.insert A a', queue := sent } := by
  show c.atNode A _ = _
  unfold Cluster.atNode
  rw [ha]
  dsimp only
  rw [hput, hqueue]
  rfl

/-- If all peers that are reached agree or not by the same condition, the condition decides,
unless there is no such peer. -/
theorem replicate_iff {A : NodeID} {a : Node} {value : Bytes} {usage : Nat} {usage' : Nat → Nat}
    {c' : Cluster} (hdone : c.replicate p A usage key value usage' = .ok c') {Q : Prop}
    (hsame : ∀ peer b, c.Reaches A a peer b → (c'.GetsSame A peer key ↔ Q)) :
    (∃ c', c.replicate p A usage key value usage' = .ok c' ∧
        ∀ peer b, c.Reaches A a peer b → c'.GetsSame A peer key) ↔
      (∀ peer b, ¬ c.Reaches A a peer b) ∨ Q := by
  constructor
  · rintro ⟨c'', hc'', hall⟩
    obtain rfl := Except.ok.inj (hdone.symm.trans hc'')
    by_cases hnone : ∀ peer b, ¬ c.Reaches A a peer b
    · exact .inl hnone
    · push Not at hnone
      obtain ⟨peer, b, hb⟩ := hnone
      exact .inr ((hsame peer b hb).mp (hall peer b hb))
  · rintro (hnone | hQ)
    · exact ⟨c', hdone, fun peer b hb => absurd hb (hnone peer b)⟩
    · exact ⟨c', hdone, fun peer b hb => (hsame peer b hb).mpr hQ⟩

section Put

variable {A : NodeID} {a : Node} {value : Bytes} {x : Option LWWRegister}

/-- What the writer reads back. -/
theorem getCrdt_put (hread : LWWRegister.deserialize (a.db.localRegister value).serialize =
    .ok (a.db.localRegister value)) (usage : Nat) (key : Bytes) :
    (a.db.put usage key value).getCrdt key =
      .ok (if value = [] then none else some (a.db.localRegister value)) := by
  have hmem : (a.db.put usage key value).lookupMem key =
      some (a.db.localRegister value).serialize := by
    unfold ZenithDB.put
    rw [ZenithDB.lookupMem_storeRecord _ _ (LWWRegister.serialize_ne_nil _), if_pos rfl]
  rw [ZenithDB.getCrdt_of_lookupMem hmem, ZenithDB.readRegister_of_deserialize hread]
  rfl

/-- **A delete** is pushed to nobody. -/
theorem delete_reaches_peers (hqueue : c.queue = []) (ha : c.nodes.get? A = some a)
    (hpeers : ∀ peer b, c.Reaches A a peer b → ∃ y, b.db.getCrdt key = .ok y ∧ SameRead x y)
    (hread : LWWRegister.deserialize (a.db.localRegister []).serialize = .ok (a.db.localRegister []))
    (usage : Nat) (usage' : Nat → Nat) :
    (∃ c', c.replicate p A usage key [] usage' = .ok c' ∧
        ∀ peer b, c.Reaches A a peer b → c'.GetsSame A peer key) ↔
      (∀ peer b, ¬ c.Reaches A a peer b) ∨ x = none := by
  have hown : (a.db.put usage key []).getCrdt key = .ok none := getCrdt_put hread usage key
  have hput : a.put usage key [] = .ok ({ a with db := a.db.put usage key [] }, []) := by
    unfold Node.put
    dsimp only
    rw [hown]
    rfl
  have hdone : c.replicate p A usage key [] usage' = .ok { c with
      nodes := c.nodes.insert A { a with db := a.db.put usage key [] }, queue := [] } := by
    unfold Cluster.replicate
    rw [step_put ha hqueue hput]
    rfl
  refine replicate_iff hdone fun peer b hb => ?_
  obtain ⟨y, hy, hxy⟩ := hpeers peer b hb
  have hb' : (c.nodes.insert A { a with db := a.db.put usage key [] }).get? peer = some b := by
    rw [SortedMap.get?_insert, if_neg hb.2.1, hb.2.2.1]
  rw [getsSame_iff (SortedMap.get?_insert_self ..) hb' hown hy]
  match x, y, hxy with
  | none, none, _ => simp
  | some v, some w, _ => simp

/-- **A live value** is pushed, and merged at every peer that is reached. -/
theorem value_reaches_peers (hqueue : c.queue = []) (ha : c.nodes.get? A = some a)
    (hpeers : ∀ peer b, c.Reaches A a peer b → ∃ y, b.db.getCrdt key = .ok y ∧ SameRead x y ∧
      ∀ v ∈ y, ZenithDB.Live ids key v)
    (hlive : ZenithDB.Live ids key (a.db.localRegister value)) (usage : Nat) (usage' : Nat → Nat) :
    (∃ c', c.replicate p A usage key value usage' = .ok c' ∧
        ∀ peer b, c.Reaches A a peer b → c'.GetsSame A peer key) ↔
      (∀ peer b, ¬ c.Reaches A a peer b) ∨
        ∀ v ∈ x, Wins value (a.db.localRegister value).clock v := by
  have hown := getCrdt_put hlive.read usage key
  rw [if_neg (show value ≠ [] from hlive.value)] at hown
  -- the put reads its own register back and pushes it
  have hput : a.put usage key value = .ok ({ a with db := a.db.put usage key value },
      pushes a.nodeId key (a.db.localRegister value) a.peers) := by
    unfold Node.put
    dsimp only
    rw [hown]
    rfl
  obtain ⟨c', hfold, hpushed⟩ := deliver_pushes
    (c := ⟨c.nodes.insert A { a with db := a.db.put usage key value }, [], c.partitioned⟩)
    hlive a.nodeId usage' a.peers 0 (by
      intro id hid b hb hpart
      rw [SortedMap.get?_insert] at hb
      by_cases heq : id = A
      · rw [if_pos heq] at hb
        obtain rfl := Option.some.inj hb
        refine ⟨_, hown, fun v hv => ?_⟩
        obtain rfl := Option.some.inj hv
        exact hlive
      · rw [if_neg heq] at hb
        obtain ⟨y, hy, -, hylive⟩ := hpeers id b ⟨hid, heq, hb, hpart⟩
        exact ⟨y, hy, hylive⟩)
  have hdone : c.replicate p A usage key value usage' = .ok c' := by
    unfold Cluster.replicate
    rw [step_put ha hqueue hput]
    exact hfold
  -- the writer still reads its own register, even if it has pushed it to itself
  obtain ⟨a', ha', hagain, hkept⟩ := hpushed A _ (SortedMap.get?_insert_self ..)
  obtain ⟨w, hw, hwvalue⟩ : ∃ w, a'.db.getCrdt key = .ok (some w) ∧ w.value = value := by
    by_cases hself : A ∉ a.peers ∨ c.partitioned.get? A = some true
    · rw [hkept hself]
      exact ⟨_, hown, rfl⟩
    · obtain ⟨hmem, hpart⟩ := not_or.mp hself
      obtain ⟨w, hw, hsame⟩ := hagain (not_not.mp hmem) hpart _ hown
      exact ⟨w, hw, hsame.1.trans (LWWRegister.Absorbs.refl _).merge_left.1⟩
  -- a peer holds the merge with what it had, which agrees if the pushed value wins
  refine replicate_iff hdone fun peer b hb => ?_
  obtain ⟨y, hy, hxy, -⟩ := hpeers peer b hb
  have hb₁ : (c.nodes.insert A { a with db := a.db.put usage key value }).get? peer = some b := by
    rw [SortedMap.get?_insert, if_neg hb.2.1, hb.2.2.1]
  obtain ⟨b', hb', hreached, -⟩ := hpushed peer b hb₁
  obtain ⟨u, hu, husame⟩ := hreached hb.1 hb.2.2.2 y hy
  rw [getsSame_iff ha' hb' hw hu, Option.map_some, Option.map_some, Option.some.injEq, hwvalue,
    husame.1, eq_comm]
  exact value_resolve_eq_iff hxy

/-- **Replication.** In every state with nothing in flight where a node and its peers that
can be reached hold the same register for a key, or none, a put is returned by all of them
after delivery if and only if there is no such peer, or nothing was held, or the value is
not empty and wins over the register that was held.

Hypotheses:
* `hqueue` — nothing is in flight, so what is delivered is this put;
* `ha`, `hx` — the node `A` and what it holds, if anything;
* `hpeers` — each peer that can be reached holds the same, and clocks that are held are over
  the ids `ids`;
* `hnodeId`, `hclock` — so are the node's own id and its clock;
* `hfits`, `hheld` — what is written and what is held fit their length fields.

Nothing is assumed about how far the local clock is, so that a node that has lost its clock
in a restart is covered. -/
theorem put_reaches_peers (hqueue : c.queue = []) (ha : c.nodes.get? A = some a)
    (hx : a.db.getCrdt key = .ok x)
    (hpeers : ∀ peer b, c.Reaches A a peer b → ∃ y, b.db.getCrdt key = .ok y ∧ SameRead x y ∧
      ∀ v ∈ y, v.clock.Within ids)
    (hnodeId : a.db.nodeId ∈ ids) (hclock : a.db.localClock.Within ids)
    (hfits : ZenithDB.Fits ids key value) (hheld : ∀ v ∈ x, ZenithDB.Fits ids key v.value)
    (usage : Nat) (usage' : Nat → Nat) :
    (∃ c', c.replicate p A usage key value usage' = .ok c' ∧
        ∀ peer b, c.Reaches A a peer b → c'.GetsSame A peer key) ↔
      (∀ peer b, ¬ c.Reaches A a peer b) ∨ x = none ∨
        value ≠ [] ∧ ∀ v ∈ x, Wins value (a.db.localRegister value).clock v := by
  have hids : (a.db.localRegister value).clock.Within ids := hclock.increment hnodeId
  by_cases hnil : value = []
  · subst hnil
    -- a deletion is pushed to nobody
    have hread : ∀ peer b, c.Reaches A a peer b → ∃ y, b.db.getCrdt key = .ok y ∧ SameRead x y := by
      intro peer b hb
      obtain ⟨y, hy, hxy, -⟩ := hpeers peer b hb
      exact ⟨y, hy, hxy⟩
    rw [delete_reaches_peers hqueue ha hread (ZenithDB.read_of_fits hids hfits)]
    simp
  · -- a value: what the peers hold came from live registers
    have hlive : ∀ peer b, c.Reaches A a peer b → ∃ y, b.db.getCrdt key = .ok y ∧ SameRead x y ∧
        ∀ v ∈ y, ZenithDB.Live ids key v := by
      intro peer b hb
      obtain ⟨y, hy, hxy, hyids⟩ := hpeers peer b hb
      refine ⟨y, hy, hxy, fun v hv => ⟨ZenithDB.getCrdt_live (hv ▸ hy), hyids v hv, ?_⟩⟩
      match x, y, hxy with
      | some w, some v', hsame =>
        obtain rfl := Option.some.inj hv
        rw [← hsame.1]
        exact hheld w rfl
    rw [value_reaches_peers hqueue ha hlive ⟨hnil, hids, hfits⟩]
    cases x <;> simp [hnil]

end Put

instance (c : Cluster) (A B : NodeID) (key : Bytes) : Decidable (c.GetsSame A B key) :=
  inferInstanceAs (Decidable (∃ a ∈ c.nodes.get? A, ∃ b ∈ c.nodes.get? B,
    ∃ v, a.db.get key = .ok v ∧ b.db.get key = .ok v))

/-- A node and its peer that have the same value. -/
def shareValue : List Action := [.addPeer [65] [66], .put [65] 0 [107] [118], .deliver 0 0, .lose 0]

/-- An overwrite reaches the peer. -/
theorem put_reaches_peers_overwrite :
    ∃ c a, (system .stable).run strangers shareValue = .ok c ∧ c.nodes.get? [65] = some a ∧
      ((∃ c', c.replicate .stable [65] 0 [107] [119] (fun _ => 0) = .ok c' ∧
        ∀ peer b, c.Reaches [65] a peer b → c'.GetsSame [65] peer [107]) ↔
      (∀ peer b, ¬ c.Reaches [65] a peer b) ∨
        some (⟨[118], VectorClock.empty.increment [65]⟩ : LWWRegister) = none ∨
        ([119] : Bytes) ≠ [] ∧ ∀ v ∈ some (⟨[118], VectorClock.empty.increment [65]⟩ : LWWRegister),
          Wins [119] (a.db.localRegister [119]).clock v) := by
  obtain ⟨c, hrun⟩ := Except.exists_eq_ok (x := (system .stable).run strangers shareValue)
    (by decide +kernel)
  have hstate : ∀ c, (system .stable).run strangers shareValue = .ok c → c.queue = [] ∧
      (c.nodes.get? [65]).isSome ∧ ∀ a ∈ c.nodes.get? [65], a.peers = [[66]] ∧
        a.db.getCrdt [107] = .ok (some ⟨[118], VectorClock.empty.increment [65]⟩) ∧
        a.db.nodeId ∈ [[65], [66]] ∧ a.db.localClock.Within [[65], [66]] := by
    decide +kernel
  have hpeer : ∀ c, (system .stable).run strangers shareValue = .ok c →
      ∀ b ∈ c.nodes.get? [66], ∃ y, b.db.getCrdt [107] = .ok y ∧
        SameRead (some ⟨[118], VectorClock.empty.increment [65]⟩) y ∧
        ∀ v ∈ y, v.clock.Within [[65], [66]] := by
    decide +kernel
  obtain ⟨hqueue, hsome, ha⟩ := hstate c hrun
  obtain ⟨a, hget⟩ := Option.isSome_iff_exists.mp hsome
  obtain ⟨hpeers, hx, hnodeId, hclock⟩ := ha a hget
  refine ⟨c, a, hrun, hget, put_reaches_peers hqueue hget hx (fun peer b hb => ?_) hnodeId hclock
    (by decide) (by decide) 0 _⟩
  have heq := hb.1
  rw [hpeers, List.mem_singleton] at heq
  subst heq
  exact hpeer c hrun b hb.2.2.1

/-- A delete does not: the peer goes on returning the value. -/
theorem delete_stays_local :
    strangers.Fresh ∧ ∃ c, (system .stable).run strangers shareValue = .ok c ∧ c.queue = [] ∧
      (∃ a ∈ c.nodes.get? [65], [66] ∈ a.peers) ∧ c.ConvergedOn [65] [66] [107] ∧
      ∃ c', c.replicate .stable [65] 0 [107] [] (fun _ => 0) = .ok c' ∧
        ¬ c'.GetsSame [65] [66] [107] :=
  ⟨fresh_strangers, by decide +kernel⟩

end Cluster

end Zenith
