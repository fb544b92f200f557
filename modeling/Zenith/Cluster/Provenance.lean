import Zenith.Cluster.Clocks
import Zenith.DB.Marked

/-!
# Zenith — where registers come from

No node of a cluster makes up a register. Whatever a node stores, whatever is read or
scanned, and whatever is in flight, in whatever order messages were delivered, delivered
twice or lost and wherever the background workers stand, was merged from local writes of the
same key (`Sourced`): its value is the value of one of them, and its clock counts what they
count and nothing else.

The invariant is general in the property of registers (`Everywhere`): one that merging keeps
and that local writes have is a property of all registers of the cluster. Nothing else about
the property is used, so the same step lemma serves wherever registers have to be bounded,
or counted, or kept from being removals.

The results on a single database do the work here. `Stores` lists the places where a
database keeps rows, its lemmas say that every step of the worker moves rows among them or
merges them, and `readProper` and `scanProper` say that what is read or scanned is one of
them or a merge. A message is such a row on its way to another node.

A run stops only at a write that fails. That no read and no merge on the way can throw is
part of the result and not assumed: it follows because all rows can be read as registers
that fit.

Main result: `registers_have_sources`.
-/

namespace Zenith

open Bytes VectorClock

-- ---------------------------------------------------------------------------
-- The invariant
-- ---------------------------------------------------------------------------

namespace Cluster

variable {ids : List NodeID} {R : Bytes → LWWRegister → Prop} {c c' : Cluster} {p : Platform}

/-- All registers of the cluster, stored and in flight, have the property. -/
structure Everywhere (ids : List NodeID) (R : Bytes → LWWRegister → Prop) (c : Cluster) : Prop where
  nodes : ∀ id node, c.nodes.get? id = some node → ZenithDB.Stores (ZenithDB.Marked ids R) node.db
  queue : ∀ msg ∈ c.queue, ZenithDB.Marked ids R msg.key msg.payload

theorem Everywhere.mono {R' : Bytes → LWWRegister → Prop} (hle : ∀ k r, R k r → R' k r)
    (h : c.Everywhere ids R) : c.Everywhere ids R' where
  nodes id node hnode := (h.nodes id node hnode).mono fun _ _ hraw => hraw.mono hle
  queue msg hmsg := (h.queue msg hmsg).mono hle

theorem everywhere_fresh (h : c.Fresh) : c.Everywhere ids R where
  nodes id node hnode := by
    obtain ⟨counter, peers, heq⟩ := h.nodes _ (SortedMap.get?_eq_some_iff.mp hnode)
    obtain rfl : node = Node.fresh id counter peers := heq
    exact ZenithDB.stores_fresh id counter
  queue msg hmsg := by
    rw [h.queue] at hmsg
    exact absurd hmsg List.not_mem_nil

/-- The cluster after one of its nodes is another one and has sent messages. -/
theorem Everywhere.update (h : c.Everywhere ids R) {id : NodeID} {node : Node} {sent : List Message}
    (hnode : ZenithDB.Stores (ZenithDB.Marked ids R) node.db)
    (hsent : ∀ msg ∈ sent, ZenithDB.Marked ids R msg.key msg.payload) :
    ({ c with nodes := c.nodes.insert id node, queue := c.queue ++ sent } : Cluster).Everywhere
      ids R where
  nodes i n hn := by
    rw [SortedMap.get?_insert] at hn
    by_cases hi : i = id
    · rw [if_pos hi] at hn
      rw [← Option.some.inj hn]
      exact hnode
    · rw [if_neg hi] at hn
      exact h.nodes i n hn
  queue msg hmsg := (List.mem_append.mp hmsg).elim (h.queue msg) (hsent msg)

/-- A method of one node keeps the invariant when what it leaves and what it sends have the
property. -/
theorem Everywhere.atNode (h : c.Everywhere ids R) {id : NodeID}
    {act : Node → Except Fault (Node × List Message)}
    (hact : ∀ node, c.nodes.get? id = some node → ∀ r, act node = .ok r →
      ZenithDB.Stores (ZenithDB.Marked ids R) r.1.db ∧
        ∀ msg ∈ r.2, ZenithDB.Marked ids R msg.key msg.payload)
    (hstep : c.atNode id act = .ok c') : c'.Everywhere ids R := by
  unfold Cluster.atNode at hstep
  cases hnode : c.nodes.get? id with
  | none =>
    rw [hnode] at hstep
    obtain rfl := Except.ok.inj hstep
    exact h
  | some node =>
    rw [hnode] at hstep
    obtain ⟨r, hr, heq⟩ := Except.bind_eq_ok_iff.mp hstep
    obtain rfl := Except.ok.inj heq
    obtain ⟨hdb, hsent⟩ := hact node hnode r hr
    exact h.update hdb hsent

/-- A local write sends what it reads back. -/
theorem put_everywhere (hR : KeptByMerge R) {node : Node}
    (h : ZenithDB.Stores (ZenithDB.Marked ids R) node.db) {usage : Nat} {key value : Bytes}
    (hreg : ZenithDB.Proper ids R key (node.db.localRegister value)) {r : Node × List Message}
    (hput : node.put usage key value = .ok r) :
    ZenithDB.Stores (ZenithDB.Marked ids R) r.1.db ∧
      ∀ msg ∈ r.2, ZenithDB.Marked ids R msg.key msg.payload := by
  have hstored : ZenithDB.Stores (ZenithDB.Marked ids R) (node.db.put usage key value) :=
    h.step (ZenithDB.mergeable_marked hR) .stable (a := .put usage key value)
      (List.forall_mem_singleton.mpr ⟨_, rfl, hreg⟩)
  obtain ⟨found, hget, hfound⟩ := hstored.readProper hR key
  unfold Node.put at hput
  dsimp only at hput
  rw [hget, Except.ok_bind] at hput
  cases found with
  | none =>
    obtain rfl := Except.ok.inj hput
    exact ⟨hstored, fun msg hmsg => absurd hmsg List.not_mem_nil⟩
  | some crdt =>
    obtain rfl := Except.ok.inj hput
    refine ⟨hstored, fun msg hmsg => ?_⟩
    obtain ⟨peer, -, rfl⟩ := List.mem_map.mp hmsg
    exact ⟨crdt, rfl, hfound crdt rfl⟩

/-- A delivery stores the merge of what is in flight with what the receiver reads. -/
theorem Everywhere.deliverMessage (hR : KeptByMerge R) (h : c.Everywhere ids R) {usage : Nat}
    {msg : Message} (hmsg : ZenithDB.Marked ids R msg.key msg.payload)
    (hstep : c.deliverMessage usage msg = .ok c') : c'.Everywhere ids R := by
  -- nothing happens at a node that is unknown or partitioned
  unfold Cluster.deliverMessage at hstep
  cases hnode : c.nodes.get? msg.receiver with
  | none =>
    rw [hnode] at hstep
    obtain rfl := Except.ok.inj hstep
    exact h
  | some node =>
    rw [hnode] at hstep
    dsimp only at hstep
    split at hstep
    · obtain rfl := Except.ok.inj hstep
      exact h
    · obtain ⟨node', hmessage, heq⟩ := Except.bind_eq_ok_iff.mp hstep
      obtain rfl := Except.ok.inj heq
      obtain ⟨incoming, hread, hincoming⟩ := hmsg.read
      have hput : ∃ db', node.db.putCrdt usage msg.key incoming = .ok db' ∧
          node' = { node with db := db' } := by
        unfold Node.onMessage at hmessage
        cases htype : msg.type <;>
        · rw [htype] at hmessage
          simp only [hread, Except.ok_bind] at hmessage
          obtain ⟨db', hdb', heq⟩ := Except.bind_eq_ok_iff.mp hmessage
          exact ⟨db', hdb', (Except.ok.inj heq).symm⟩
      obtain ⟨db', hdb', rfl⟩ := hput
      have hstored := ((h.nodes _ _ hnode).putCrdtProper hR usage hincoming).result hdb'
      have hupdate : Everywhere ids R { c with
          nodes := c.nodes.insert msg.receiver { node with db := db' }, queue := c.queue ++ [] } :=
        h.update hstored fun m hm => absurd hm List.not_mem_nil
      rwa [List.append_nil] at hupdate

/-- **One step** keeps the invariant, if a register that is written locally has the
property. -/
theorem Everywhere.step (hR : KeptByMerge R) (h : c.Everywhere ids R) {a : Action}
    (hput : ∀ id usage key value, a = .put id usage key value →
      ∀ node, c.nodes.get? id = some node → ZenithDB.Proper ids R key (node.db.localRegister value))
    (hstep : c.step p a = .ok c') : c'.Everywhere ids R := by
  have hnothing : ∀ msg ∈ ([] : List Message), ZenithDB.Marked ids R msg.key msg.payload :=
    fun msg hmsg => absurd hmsg List.not_mem_nil
  -- what is stored or sent was stored or in flight before, is a merge of such, or this put makes it
  cases a with
  | put id usage key value =>
    exact h.atNode (fun node hnode r hr =>
      put_everywhere hR (h.nodes id node hnode) (hput id usage key value rfl node hnode) hr) hstep
  | triggerAntiEntropy id target =>
    refine h.atNode (fun node hnode r hr => ?_) hstep
    obtain ⟨rows, hscan, hrows⟩ := (h.nodes id node hnode).scanProper hR p [] [0xFF]
    unfold Node.triggerAntiEntropy at hr
    rw [hscan] at hr
    obtain rfl := Except.ok.inj hr
    refine ⟨h.nodes id node hnode, fun msg hmsg => ?_⟩
    obtain ⟨kv, hkv, rfl⟩ := List.mem_map.mp hmsg
    exact ⟨kv.2, rfl, hrows kv hkv⟩
  | deliver i usage =>
    unfold Cluster.step at hstep
    dsimp only at hstep
    cases hmsg : c.queue[i]? with
    | none =>
      rw [hmsg] at hstep
      obtain rfl := Except.ok.inj hstep
      exact h
    | some msg =>
      rw [hmsg] at hstep
      exact h.deliverMessage hR (h.queue msg (List.mem_of_getElem? hmsg)) hstep
  -- what stays in flight was in flight
  | lose i =>
    obtain rfl := Except.ok.inj hstep
    exact ⟨h.nodes, fun msg hmsg => h.queue msg (List.mem_of_mem_eraseIdx hmsg)⟩
  | addPeer id peer =>
    refine h.atNode (fun node hnode r hr => ?_) hstep
    obtain rfl := Except.ok.inj hr
    have hsame : (node.addPeer peer).db = node.db := by
      unfold Node.addPeer
      split <;> rfl
    exact ⟨by rw [hsame]; exact h.nodes id node hnode, hnothing⟩
  | partition id isPartitioned =>
    obtain rfl := Except.ok.inj hstep
    exact ⟨h.nodes, h.queue⟩
  | work id time =>
    refine h.atNode (fun node hnode r hr => ?_) hstep
    obtain ⟨db', hwork, heq⟩ := Except.bind_eq_ok_iff.mp hr
    obtain rfl := Except.ok.inj heq
    exact ⟨((h.nodes id node hnode).work (ZenithDB.mergeable_marked hR) p time).result hwork,
      hnothing⟩
  | otherNames id n =>
    refine h.atNode (fun node hnode r hr => ?_) hstep
    obtain rfl := Except.ok.inj hr
    have hstores := h.nodes id node hnode
    exact ⟨⟨hstores.memtables, hstores.layout, hstores.worker, hstores.files⟩, hnothing⟩

-- ---------------------------------------------------------------------------
-- The writes of a run
-- ---------------------------------------------------------------------------

/-- A register merged from the writes: its value is the value of one of them, and its
clock is the least one above theirs. -/
structure MergedFrom (ws : List Write) (reg : LWWRegister) : Prop where
  value : ∃ w ∈ ws, w.reg.value = reg.value
  above : ∀ w ∈ ws, w.reg.clock ≤ reg.clock
  attained : ∀ n, ∃ w ∈ ws, w.reg.clock.get n = reg.clock.get n

/-- A write is merged from itself. -/
theorem mergedFrom_singleton (w : Write) : MergedFrom [w] w.reg :=
  ⟨⟨w, List.mem_singleton_self w, rfl⟩, fun _ hw => by rw [List.mem_singleton.mp hw],
    fun _ => ⟨w, List.mem_singleton_self w, rfl⟩⟩

/-- What is merged of two lists is merged from both. The value is that of one side, and each
component of the clock is the larger of the two. -/
theorem MergedFrom.merge {ws vs : List Write} {r o : LWWRegister} (hr : MergedFrom ws r)
    (ho : MergedFrom vs o) : MergedFrom (ws ++ vs) (r.merge o) where
  value := by
    obtain ⟨w, hw, hwr⟩ := hr.value
    obtain ⟨v, hv, hvo⟩ := ho.value
    rcases r.value_merge o with heq | heq
    · exact ⟨w, List.mem_append_left vs hw, hwr.trans heq.symm⟩
    · exact ⟨v, List.mem_append_right ws hv, hvo.trans heq.symm⟩
  above := List.forall_mem_append.mpr
    ⟨fun w hw => (hr.above w hw).trans (r.clock_le_merge_left o),
      fun v hv => (ho.above v hv).trans (r.clock_le_merge_right o)⟩
  attained n := by
    obtain ⟨w, hw, hwr⟩ := hr.attained n
    obtain ⟨v, hv, hvo⟩ := ho.attained n
    rw [LWWRegister.get_clock_merge]
    rcases max_choice (r.clock.get n) (o.clock.get n) with heq | heq
    · exact ⟨w, List.mem_append_left vs hw, hwr.trans heq.symm⟩
    · exact ⟨v, List.mem_append_right ws hv, hvo.trans heq.symm⟩

/-- The register was merged from some of the writes of its key. -/
def Sourced (tr : List Write) (key : Bytes) (reg : LWWRegister) : Prop :=
  ∃ ws ⊆ tr, (∀ w ∈ ws, w.key = key) ∧ MergedFrom ws reg

theorem keptByMerge_sourced (tr : List Write) : KeptByMerge (Sourced tr) := by
  rintro key r o ⟨ws, hws, hkeys, hr⟩ ⟨vs, hvs, hkeys', ho⟩
  exact ⟨ws ++ vs, List.append_subset.mpr ⟨hws, hvs⟩, List.forall_mem_append.mpr ⟨hkeys, hkeys'⟩,
    hr.merge ho⟩

theorem Sourced.append {tr : List Write} {key : Bytes} {reg : LWWRegister} (h : Sourced tr key reg)
    (more : List Write) : Sourced (tr ++ more) key reg := by
  obtain ⟨ws, hws, hkeys, hmerged⟩ := h
  exact ⟨ws, fun w hw => List.mem_append_left more (hws hw), hkeys, hmerged⟩

/-- Every clock has the trivial property. -/
theorem joins_true : Joins fun _ => True := fun _ _ _ _ => trivial

/-- **One step.** The registers come from the writes so far and those of the step. The
clocks are carried along because a local write has to fit, clock included. -/
theorem sources_step {tr : List Write} {a : Action} (hclocked : c.Clocked ids fun _ => True)
    (h : c.Everywhere ids (Sourced tr)) (ha : c.Sized ids a) :
    (c.step p a).Post (fun c' => c'.Clocked ids (fun _ => True) ∧
      c'.Everywhere ids (Sourced (tr ++ c.writes a))) WriteFailed := by
  apply (hclocked.step joins_true ha fun _ _ _ _ _ _ _ => trivial).imp
  rintro c' hstep ⟨hclocked', -⟩
  refine ⟨hclocked', (h.mono fun _ _ hr => hr.append (c.writes a)).step
    (keptByMerge_sourced _) ?_ hstep⟩
  rintro id usage key value rfl node hnode
  obtain ⟨hid, hdb⟩ := hclocked.nodes id node hnode
  -- the put succeeded, so the trace lists it
  have hwrite : ∃ sent, c.writes (.put id usage key value) =
      [⟨id, key, node.db.localRegister value, sent⟩] := by
    have hput : c.atNode id (fun node => node.put usage key value) = .ok c' := hstep
    unfold Cluster.atNode at hput
    rw [hnode] at hput
    obtain ⟨r, hr, -⟩ := Except.bind_eq_ok_iff.mp hput
    exact ⟨r.2, by simp only [Cluster.writes, hnode, hr]⟩
  obtain ⟨sent, hwrite⟩ := hwrite
  rw [hwrite]
  refine ⟨hdb.clock.increment hdb.node, (ha node hnode).1,
    [⟨id, key, node.db.localRegister value, sent⟩], ?_, ?_, mergedFrom_singleton _⟩
  · exact List.subset_append_right ..
  · exact List.forall_mem_singleton.mpr rfl

/-- **Sources.** A run of writes that fit, from fresh nodes, stops at nothing but a failed
write. Every register that is then stored or in flight, and all that point reads and scans
return at any node, was merged from local writes of its key.

The nodes start over empty directories (`hfresh`), and local writes fit their length fields
and do not wrap the counter (`hsized`). Deliveries, losses, passes of anti-entropy and
partitions are not restricted. -/
theorem registers_have_sources {start : Cluster} {as : List Action} (hfresh : start.Fresh)
    (hsized : (system p).Along (fun _ => Sized start.nodes.keys) [] start as) :
    ((system p).run start as).Post
      (fun c => (∀ key reg, c.Occurs key reg → Sourced ((system p).trace start as) key reg) ∧
        ∀ id node, c.nodes.get? id = some node →
          (∀ key, ∃ found, node.db.getCrdt key = .ok found ∧
            ∀ reg ∈ found, Sourced ((system p).trace start as) key reg) ∧
          ∀ first last, ∃ rows, node.db.scanCrdt p first last = .ok rows ∧
            ∀ kv ∈ rows, Sourced ((system p).trace start as) kv.1 kv.2)
      WriteFailed := by
  have hrun := System.run_outcome (S := system p) (F := WriteFailed)
    (P := fun tr c => c.Clocked start.nodes.keys (fun _ => True) ∧
      c.Everywhere start.nodes.keys (Sourced tr))
    (fun tr c a h ha => sources_step h.1 h.2 ha)
    ⟨clocked_fresh hfresh trivial, everywhere_fresh hfresh⟩ hsized
  apply hrun.imp
  rintro c - ⟨-, h⟩
  rw [List.nil_append] at h
  have hR := keptByMerge_sourced ((system p).trace start as)
  refine ⟨?_, fun id node hnode => ⟨fun key => ?_, fun first last => ?_⟩⟩
  · rintro key reg (⟨id, node, hnode, hstored⟩ | ⟨msg, hmsg, rfl, hread⟩)
    · exact ((h.nodes id node hnode).storedProper hR hstored).has
    · exact ((h.queue msg hmsg).proper hread).has
  · obtain ⟨found, hget, hfound⟩ := (h.nodes id node hnode).readProper hR key
    exact ⟨found, hget, fun reg hreg => (hfound reg hreg).has⟩
  · obtain ⟨rows, hscan, hrows⟩ := (h.nodes id node hnode).scanProper hR p first last
    exact ⟨rows, hscan, fun kv hkv => (hrows kv hkv).has⟩

/-- Concurrent writes of a key, and the delivery of one to the other's node. -/
theorem registers_have_sources_concurrent :
    ((system .stable).run strangers [.addPeer [65] [66], .put [66] 0 [107] [119],
        .put [65] 0 [107] [118], .deliver 0 0]).Post
      (fun c => (∀ key reg, c.Occurs key reg → Sourced ((system .stable).trace strangers
            [.addPeer [65] [66], .put [66] 0 [107] [119], .put [65] 0 [107] [118], .deliver 0 0])
            key reg) ∧
        ∀ id node, c.nodes.get? id = some node →
          (∀ key, ∃ found, node.db.getCrdt key = .ok found ∧
            ∀ reg ∈ found, Sourced ((system .stable).trace strangers [.addPeer [65] [66],
              .put [66] 0 [107] [119], .put [65] 0 [107] [118], .deliver 0 0]) key reg) ∧
          ∀ first last, ∃ rows, node.db.scanCrdt .stable first last = .ok rows ∧
            ∀ kv ∈ rows, Sourced ((system .stable).trace strangers [.addPeer [65] [66],
              .put [66] 0 [107] [119], .put [65] 0 [107] [118], .deliver 0 0]) kv.1 kv.2)
      WriteFailed :=
  registers_have_sources fresh_strangers (by decide +kernel)

end Cluster

end Zenith
