import Zenith.Cluster.MergeOrder
import Zenith.Cluster.Replication

/-!
# Zenith — strong eventual consistency

Replicas that write nothing and process the messages of the same writes of a key. A message
carries the register of its write, so a replica reads what the merges of
`Zenith.Cluster.MergeOrder` leave, in the order in which the messages came.

Their clocks always agree. Their values agree in every order exactly when each value that
was written is outdated, or at most the value of a write that no other one is after
(`Settling`). The tie-break of a merge between concurrent registers takes the larger value,
whether or not its own writer has overwritten it since; this is why the condition is about
values, and why it can fail although the clocks are all that they should be.

The writes are those of a run of a cluster, with whatever else happened in it. What is used
of the run is that a live write was carried by all the messages it sent (`trace_carried`),
and that the clocks of its writes count the writes before them (`CausalWrites`). The
replicas are fresh nodes besides the cluster: they get the messages in any order and with
any duplicates, and each message at least once (`Exactly`).

Deletes are left out of the result. A delete is not pushed to anyone, so no replica can
process it.

Main result: `replicas_converge`.
-/

namespace Zenith

open Bytes VectorClock

namespace Cluster

variable {ids : List NodeID} {P : VectorClock → Prop} {p : Platform} {start c : Cluster}
  {as : List Action} {key : Bytes}

/-- A node that processes these messages, in this order. Message `i` finds the memtable with
the usage that `usage` gives for it, so rotations are free. -/
def process (usage : Nat → Nat) (first : Nat) (n : Node) (msgs : List Message) : Except Fault Node :=
  (msgs.zipIdx first).foldlM (fun n m => n.onMessage (usage m.2) m.1) n

/-- The writes of a key that were sent to anyone. -/
def sentWrites (tr : List Write) (key : Bytes) : List Write :=
  tr.filter fun w => decide (w.key = key ∧ w.sent ≠ [])

/-- These are the messages that the writes of the key sent, in any order and with any
duplicates. -/
def Exactly (tr : List Write) (key : Bytes) (msgs : List Message) : Prop :=
  (∀ msg ∈ msgs, ∃ w ∈ sentWrites tr key, msg ∈ w.sent) ∧
    ∀ w ∈ sentWrites tr key, ∃ msg ∈ msgs, msg ∈ w.sent

/-- Any two replicas that process the messages of the writes of the key read the same. -/
def Converges (tr : List Write) (key : Bytes) : Prop :=
  ∀ (R R' : NodeID) (counter counter' : Nat) (peers peers' : List NodeID) (usage usage' : Nat → Nat)
    (msgs msgs' : List Message), Exactly tr key msgs → Exactly tr key msgs' →
      ∃ n n' x y, process usage 0 (.fresh R counter peers) msgs = .ok n ∧
        process usage' 0 (.fresh R' counter' peers') msgs' = .ok n' ∧
        n.db.getCrdt key = .ok x ∧ n'.db.getCrdt key = .ok y ∧ SameRead x y

-- ---------------------------------------------------------------------------
-- What writes send
-- ---------------------------------------------------------------------------

/-- Every message of the write carries its register, which can be stored and sent. A write
with an empty value carries none. -/
def Carried (ids : List NodeID) (w : Write) : Prop :=
  ZenithDB.Live ids w.key w.reg ∧
    ∀ msg ∈ w.sent, msg.key = w.key ∧ msg.payload = w.reg.serialize

/-- A put with a live value reads back the register that it wrote, and pushes that one. -/
theorem put_carried (h : c.Clocked ids P) {id : NodeID} {node node' : Node} {sent : List Message}
    (hnode : c.nodes.get? id = some node) {usage : Nat} {value : Bytes} (hvalue : value ≠ [])
    (hfits : ZenithDB.Fits ids key value) (hput : node.put usage key value = .ok (node', sent)) :
    Carried ids ⟨id, key, node.db.localRegister value, sent⟩ := by
  obtain ⟨-, hdb⟩ := h.nodes id node hnode
  have hlive : ZenithDB.Live ids key (node.db.localRegister value) :=
    ⟨hvalue, hdb.clock.increment hdb.node, hfits⟩
  refine ⟨hlive, fun msg hmsg => ?_⟩
  have hown := getCrdt_put hlive.read usage key
  rw [if_neg hvalue] at hown
  unfold Node.put at hput
  dsimp only at hput
  rw [hown] at hput
  obtain ⟨-, rfl⟩ := Prod.mk.inj (Except.ok.inj hput)
  obtain ⟨peer, -, rfl⟩ := List.mem_map.mp hmsg
  exact ⟨rfl, rfl⟩

/-- Every write of a run with a live value sends its register. -/
theorem trace_carried (hfresh : start.Fresh) (hrun : (system p).run start as = .ok c)
    (hsized : (system p).Along (fun _ => Sized start.nodes.keys) [] start as) {w : Write}
    (hw : w ∈ (system p).trace start as) (hvalue : w.reg.value ≠ []) :
    Carried start.nodes.keys w := by
  -- the step of the run at which the write was made
  obtain ⟨before, a, after, t, t', rfl, hbefore, hstep, hemit⟩ := System.mem_trace hrun hw
  have hrecorded := recorded_run hfresh hbefore hsized.append_left
  have ha : t.Sized start.nodes.keys a := hsized.at_step hbefore
  cases a with
  | put id usage key value =>
    replace hemit : w ∈ t.writes (.put id usage key value) := hemit
    unfold Cluster.writes at hemit
    dsimp only at hemit
    cases hnode : t.nodes.get? id with
    | none =>
      rw [hnode] at hemit
      exact absurd hemit List.not_mem_nil
    | some node =>
      rw [hnode] at hemit
      dsimp only at hemit
      cases hput : node.put usage key value with
      | error e =>
        rw [hput] at hemit
        exact absurd hemit List.not_mem_nil
      | ok r =>
        rw [hput] at hemit
        obtain rfl := List.mem_singleton.mp hemit
        exact put_carried hrecorded.clocked hnode hvalue (ha node hnode).1 hput
  | _ => exact absurd hemit List.not_mem_nil

-- ---------------------------------------------------------------------------
-- What replicas read
-- ---------------------------------------------------------------------------

/-- **Processing messages**, by induction on them: the replica reads the registers of
their writes, merged in the order of arrival. -/
theorem process_writes (usage : Nat → Nat) {l : List Write} {msgs : List Message}
    (hmsgs : List.Forall₂ (fun w msg => msg ∈ w.sent) l msgs)
    (hl : ∀ w ∈ l, w.key = key ∧ Carried ids w) (first : Nat) {n : Node} {s : Option LWWRegister}
    (hs : n.db.getCrdt key = .ok s) (hlive : ∀ v ∈ s, ZenithDB.Live ids key v) :
    ∃ n', process usage first n msgs = .ok n' ∧
      n'.db.getCrdt key = .ok (l.foldl (fun s w => some (ZenithDB.resolve w.reg s)) s) := by
  induction hmsgs generalizing first n s with
  | nil => exact ⟨n, rfl, hs⟩
  | @cons w msg l msgs hmsg _ ih =>
    obtain ⟨⟨hkey, hw, hsent⟩, hrest⟩ := List.forall_mem_cons.mp hl
    obtain ⟨hmsgKey, hpayload⟩ := hsent msg hmsg
    rw [hkey] at hw hmsgKey
    obtain ⟨db, hput⟩ := ZenithDB.putCrdt_ok hs (usage first) w.reg
    -- the first message, and what the replica reads after it
    have hmerged := hw.resolve hlive
    have hget : db.getCrdt key = .ok (some (ZenithDB.resolve w.reg s)) := by
      rw [ZenithDB.getCrdt_putCrdt hs hput, ZenithDB.readRegister_of_deserialize hmerged.read,
        if_neg hmerged.value]
    have hmessage : n.onMessage (usage first) msg = .ok { n with db := db } := by
      unfold Node.onMessage
      cases msg.type <;>
        simp only [hpayload, hw.read, hmsgKey, hput, Except.ok_bind, Except.pure_eq_ok]
    obtain ⟨n', hrun, hread⟩ := ih hrest (first + 1) (n := { n with db := db }) hget fun v hv => by
      obtain rfl := Option.some.inj hv
      exact hmerged
    refine ⟨n', ?_, hread⟩
    unfold process at hrun ⊢
    rw [List.zipIdx_cons, List.foldlM_cons, hmessage, Except.ok_bind, hrun]

theorem getCrdt_fresh (id : NodeID) (counter : Nat) (key : Bytes) :
    (ZenithDB.fresh id counter).getCrdt key = .ok none := by
  have hlookup : (ZenithDB.fresh id counter).lookup key = .ok none :=
    ZenithDB.lookupLevels_replicate_nil key _
  rw [ZenithDB.getCrdt, hlookup, Except.ok_bind]
  rfl

-- ---------------------------------------------------------------------------
-- Convergence
-- ---------------------------------------------------------------------------

theorem mem_sentWrites {tr : List Write} {w : Write} :
    w ∈ sentWrites tr key ↔ w ∈ tr ∧ w.key = key ∧ w.sent ≠ [] := by
  unfold sentWrites
  rw [List.mem_filter, decide_eq_true_eq]

theorem Recorded.causalWrites {tr : List Write} (h : c.Recorded ids tr) (key : Bytes) :
    CausalWrites (sentWrites tr key) where
  counts u hu w hw hle :=
    (h.writes w (mem_sentWrites.mp hw).1).2 u (mem_sentWrites.mp hu).1 hle
  distinct u hu w hw hle hge := by
    -- of two different writes the later one counts more of its node
    let R : Write → Write → Prop := fun u w =>
      u.reg.clock ≤ w.reg.clock → w.reg.clock ≤ u.reg.clock → u = w
    have : Std.Symm R := ⟨fun u w huw hle hge => (huw hge hle).symm⟩
    have hpairs : tr.Pairwise R := h.later.imp fun hlt _ hge => absurd hlt (hge _).not_gt
    exact List.Pairwise.forall_of_forall (R := R) (fun u _ _ _ => rfl) hpairs
      (mem_sentWrites.mp hu).1 (mem_sentWrites.mp hw).1 hle hge

/-- A write for each message. -/
theorem exists_writes {ws : List Write} {msgs : List Message}
    (h : ∀ msg ∈ msgs, ∃ w ∈ ws, msg ∈ w.sent) :
    ∃ l : List Write, List.Forall₂ (fun w msg => msg ∈ w.sent) l msgs ∧ l ⊆ ws := by
  induction msgs with
  | nil => exact ⟨[], .nil, List.nil_subset _⟩
  | cons msg msgs ih =>
    obtain ⟨⟨w, hw, hmsg⟩, hrest⟩ := List.forall_mem_cons.mp h
    obtain ⟨l, hl, hsub⟩ := ih hrest
    exact ⟨w :: l, .cons hmsg hl, List.cons_subset.mpr ⟨hw, hsub⟩⟩

/-- A message for each write. -/
theorem exists_messages {l : List Write} (h : ∀ w ∈ l, w.sent ≠ []) :
    ∃ msgs : List Message, List.Forall₂ (fun w msg => msg ∈ w.sent) l msgs := by
  induction l with
  | nil => exact ⟨[], .nil⟩
  | cons w l ih =>
    obtain ⟨hw, hrest⟩ := List.forall_mem_cons.mp h
    obtain ⟨msg, hmsg⟩ := List.exists_mem_of_ne_nil _ hw
    obtain ⟨msgs, hmsgs⟩ := ih hrest
    exact ⟨msg :: msgs, .cons hmsg hmsgs⟩

/-- The messages of a replica are those of the writes in some order. A write may have been
sent to many nodes; which of its messages arrives does not matter, as all carry the same
register. -/
theorem Exactly.writes {tr : List Write} {msgs : List Message} (h : Exactly tr key msgs)
    (hws : CausalWrites (sentWrites tr key)) (hcarried : ∀ w ∈ sentWrites tr key, Carried ids w) :
    ∃ l, List.Forall₂ (fun w msg => msg ∈ w.sent) l msgs ∧ ∀ w, w ∈ l ↔ w ∈ sentWrites tr key := by
  obtain ⟨l, hl, hsub⟩ := exists_writes h.1
  refine ⟨l, hl, fun w => ⟨fun hw => hsub hw, fun hw => ?_⟩⟩
  obtain ⟨msg, hmsg, hsent⟩ := h.2 w hw
  obtain ⟨i, hi, rfl⟩ := List.mem_iff_getElem.mp hmsg
  obtain ⟨hlength, hget⟩ := List.forall₂_iff_get.mp hl
  have hil : i < l.length := hlength.symm ▸ hi
  have hu : l[i] ∈ sentWrites tr key := hsub (List.getElem_mem hil)
  -- one message comes from one write
  obtain ⟨hlive, hpayload⟩ := hcarried w hw
  obtain ⟨hlive', hpayload'⟩ := hcarried l[i] hu
  have hreg : w.reg = l[i].reg := by
    have hsame := (hpayload _ hsent).2.symm.trans (hpayload' _ (hget i hil hi)).2
    have hread := hlive.read
    rw [hsame, hlive'.read] at hread
    exact (Except.ok.inj hread).symm
  have heq := hws.distinct w hw l[i] hu (by rw [hreg]) (by rw [hreg])
  rw [heq]
  exact List.getElem_mem hil

/-- **Strong eventual consistency.** For the writes that a run of a cluster of fresh nodes
makes of a key: any two replicas that process their messages, in any orders and with any
duplicates, read the same if and only if every value is outdated or at most that of a write
that no other one is after. The number of nodes, writes and messages is arbitrary, and so is
what else happens in the run.

Hypotheses:
* `hfresh`, `hrun` — the writes are those of a run from empty directories;
* `hsized` — they fit their length fields, and no counter wraps;
* `hlive` — none of the writes of the key is a delete. Other keys may be deleted. -/
theorem replicas_converge (hfresh : start.Fresh) (hrun : (system p).run start as = .ok c)
    (hsized : (system p).Along (fun _ => Sized start.nodes.keys) [] start as)
    (hlive : ∀ w ∈ (system p).trace start as, w.key = key → w.reg.value ≠ []) :
    Converges ((system p).trace start as) key ↔
      Settling (sentWrites ((system p).trace start as) key) := by
  have hws := (recorded_run hfresh hrun hsized).causalWrites key
  have hcarried : ∀ w ∈ sentWrites ((system p).trace start as) key,
      w.key = key ∧ Carried start.nodes.keys w := by
    intro w hw
    obtain ⟨hmem, hkey, -⟩ := mem_sentWrites.mp hw
    exact ⟨hkey, trace_carried hfresh hrun hsized hmem (hlive w hmem hkey)⟩
  -- a replica reads what the writes make of the registers they send
  have hprocess : ∀ (R : NodeID) (counter : Nat) (peers : List NodeID) (usage : Nat → Nat)
      (l : List Write) (msgs : List Message), List.Forall₂ (fun w msg => msg ∈ w.sent) l msgs →
      (∀ w, w ∈ l ↔ w ∈ sentWrites ((system p).trace start as) key) →
      ∃ n, process usage 0 (.fresh R counter peers) msgs = .ok n ∧
        n.db.getCrdt key = .ok (received l) := fun R counter peers usage l msgs hmsgs hl =>
    process_writes usage hmsgs (fun w hw => hcarried w ((hl w).mp hw)) 0
      (getCrdt_fresh R counter key) fun v hv => absurd hv (by simp)
  rw [← orders_agree_iff hws]
  constructor
  · intro hconverges l l' hl hl'
    -- every order of the writes is an order of messages
    have hsent : ∀ l : List Write, (∀ w, w ∈ l ↔ w ∈ sentWrites ((system p).trace start as) key) →
        ∃ msgs, List.Forall₂ (fun w msg => msg ∈ w.sent) l msgs ∧
          Exactly ((system p).trace start as) key msgs := by
      intro l hl
      obtain ⟨msgs, hmsgs⟩ := exists_messages fun w hw => (mem_sentWrites.mp ((hl w).mp hw)).2.2
      obtain ⟨hlength, hget⟩ := List.forall₂_iff_get.mp hmsgs
      refine ⟨msgs, hmsgs, fun msg hmsg => ?_, fun w hw => ?_⟩
      · obtain ⟨i, hi, rfl⟩ := List.mem_iff_getElem.mp hmsg
        have hil : i < l.length := hlength.symm ▸ hi
        exact ⟨l[i], (hl _).mp (List.getElem_mem hil), hget i hil hi⟩
      · obtain ⟨i, hi, rfl⟩ := List.mem_iff_getElem.mp ((hl w).mpr hw)
        exact ⟨msgs[i], List.getElem_mem (hlength ▸ hi), hget i hi (hlength ▸ hi)⟩
    -- two replicas that see the writes in the two orders
    obtain ⟨msgs, hmsgs, hexactly⟩ := hsent l hl
    obtain ⟨msgs', hmsgs', hexactly'⟩ := hsent l' hl'
    obtain ⟨n, n', x, y, hn, hn', hx, hy, hsame⟩ := hconverges [] [] 0 0 [] [] (fun _ => 0)
      (fun _ => 0) msgs msgs' hexactly hexactly'
    obtain ⟨m, hm, hread⟩ := hprocess [] 0 [] (fun _ => 0) l msgs hmsgs hl
    obtain ⟨m', hm', hread'⟩ := hprocess [] 0 [] (fun _ => 0) l' msgs' hmsgs' hl'
    obtain rfl := Except.ok.inj (hn.symm.trans hm)
    obtain rfl := Except.ok.inj (hn'.symm.trans hm')
    rw [← Except.ok.inj (hx.symm.trans hread), ← Except.ok.inj (hy.symm.trans hread')]
    exact hsame
  · intro hagree R R' counter counter' peers peers' usage usage' msgs msgs' hexactly hexactly'
    obtain ⟨l, hmsgs, hl⟩ := hexactly.writes hws fun w hw => (hcarried w hw).2
    obtain ⟨l', hmsgs', hl'⟩ := hexactly'.writes hws fun w hw => (hcarried w hw).2
    obtain ⟨n, hn, hread⟩ := hprocess R counter peers usage l msgs hmsgs hl
    obtain ⟨n', hn', hread'⟩ := hprocess R' counter' peers' usage' l' msgs' hmsgs' hl'
    exact ⟨n, n', _, _, hn, hn', hread, hread', hagree l l' hl hl'⟩

instance (tr : List Write) (key : Bytes) (msgs : List Message) : Decidable (Exactly tr key msgs) :=
  inferInstanceAs (Decidable ((∀ msg ∈ msgs, ∃ w ∈ sentWrites tr key, msg ∈ w.sent) ∧
    ∀ w ∈ sentWrites tr key, ∃ msg ∈ msgs, msg ∈ w.sent))

/-- Two writes of one node and a concurrent one of another, pushed to two replicas. -/
def overwriteAndConcurrent : List Action :=
  [.addPeer [65] [82], .addPeer [65] [83], .addPeer [66] [82], .addPeer [66] [83],
    .put [65] 0 [107] [122], .put [65] 0 [107] [97], .put [66] 0 [107] [109]]

theorem replicas_converge_two_writes :
    Converges ((system .stable).trace strangers
        [.addPeer [65] [82], .put [65] 0 [107] [118], .put [65] 0 [107] [119]]) [107] ↔
      Settling (sentWrites ((system .stable).trace strangers
        [.addPeer [65] [82], .put [65] 0 [107] [118], .put [65] 0 [107] [119]]) [107]) := by
  obtain ⟨c, hrun⟩ := Except.exists_eq_ok (x := (system .stable).run strangers
    [.addPeer [65] [82], .put [65] 0 [107] [118], .put [65] 0 [107] [119]]) (by decide +kernel)
  exact replicas_converge fresh_strangers hrun (by decide +kernel) (by decide +kernel)

/-- The overwritten value `"z"` is raised into the concurrent write at one replica, so that
its overwrite comes too late there. -/
theorem overwritten_value_survives :
    strangers.Fresh ∧ ((system .stable).run strangers overwriteAndConcurrent).isOk = true ∧
      (∀ w ∈ (system .stable).trace strangers overwriteAndConcurrent, w.reg.value ≠ []) ∧
      ¬ Converges ((system .stable).trace strangers overwriteAndConcurrent) [107] := by
  refine ⟨fresh_strangers, by decide +kernel, by decide +kernel, fun h => ?_⟩
  let push (sender receiver : NodeID) (value : Bytes) (clock : VectorClock) : Message :=
    ⟨.put, sender, receiver, [107], LWWRegister.serialize ⟨value, clock⟩⟩
  let first := VectorClock.empty.increment [65]
  let second := first.increment [65]
  let other := VectorClock.empty.increment [66]
  obtain ⟨n, n', x, y, hn, hn', hx, hy, hsame⟩ := h [82] [83] 0 0 [] [] (fun _ => 0) (fun _ => 0)
    [push [65] [82] [122] first, push [66] [82] [109] other, push [65] [82] [97] second]
    [push [65] [83] [122] first, push [65] [83] [97] second, push [66] [83] [109] other]
    (by decide +kernel) (by decide +kernel)
  -- `z` wins against `m` before its own writer overwrites it, and `a` comes too late
  have hfirst : ∀ n, process (fun _ => 0) 0 (.fresh [82] 0 [])
      [push [65] [82] [122] first, push [66] [82] [109] other, push [65] [82] [97] second] = .ok n →
      ∀ x, n.db.getCrdt [107] = .ok x → x.map (·.value) = some [122] := by
    decide +kernel
  -- `a` overwrites `z` at once, and `m` wins against `a`
  have hsecond : ∀ n, process (fun _ => 0) 0 (.fresh [83] 0 [])
      [push [65] [83] [122] first, push [65] [83] [97] second, push [66] [83] [109] other] = .ok n →
      ∀ y, n.db.getCrdt [107] = .ok y → y.map (·.value) = some [109] := by
    decide +kernel
  obtain ⟨r, rfl, hr⟩ := Option.map_eq_some_iff.mp (hfirst n hn x hx)
  obtain ⟨r', rfl, hr'⟩ := Option.map_eq_some_iff.mp (hsecond n' hn' y hy)
  have hvalue : r.value = r'.value := hsame.1
  rw [hr, hr'] at hvalue
  exact absurd hvalue (by decide)

end Cluster

end Zenith
