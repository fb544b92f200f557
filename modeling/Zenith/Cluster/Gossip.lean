import Zenith.Cluster.AntiEntropy

/-!
# Zenith — anti-entropy among many nodes

Passes of anti-entropy in any schedule: who sends to whom, how often and in which order. Of
one key a pass is a step on what the nodes show for it (`Takes`), so that the schedule is an
exchange of registers (`Exchanged`), and what one node showed spreads along the passes to
all that they inform (`informed`).

Values do not only go up: a node that receives a register under an equal clock takes its
value. What goes up is the clocks, and that is enough. A node that every node has informed
has a clock above all the others, so one pass from it to each of them leaves all nodes with
its registers.

The first two sections know nothing of databases. They are about functions from nodes to
registers, and `Exchanged.covers`, `Exchanged.covered` and `Exchanged.spread` are the three
facts about an exchange from which convergence follows. The third section connects them to
the code: `push_passed` shows that one call of `anti_entropy_push` with all its deliveries
is one `Takes` for every key that it sends, and `schedule_spec` carries this through a
schedule.

What the code needs for this is `Ordered`, the order of the versions of a key among the
layers of a database, because a scan merges versions that a point read passes over. A
received register keeps the order only when it takes the place of the frozen versions of its
key, and `Displaced` asks this of every pass of the schedule, on the state before it. The
last passes, from the hub, are free of it: nothing is sent on from their targets.

Main result: `gossip_converges`.
-/

namespace Zenith

open Bytes

namespace Cluster

-- ---------------------------------------------------------------------------
-- Registers of one key
-- ---------------------------------------------------------------------------

theorem SameRead.refl (x : Option LWWRegister) : SameRead x x := by
  cases x with
  | none => trivial
  | some v => exact LWWRegister.Same.refl v

theorem SameRead.symm {x y : Option LWWRegister} (h : SameRead x y) : SameRead y x := by
  cases x <;> cases y <;> first | exact h | exact LWWRegister.Same.symm h

theorem SameRead.trans {x y z : Option LWWRegister} (h : SameRead x y) (h' : SameRead y z) :
    SameRead x z := by
  cases x with
  | none => cases y with
    | none => exact h'
    | some w => exact absurd h id
  | some v => cases y with
    | none => exact absurd h id
    | some w => cases z with
      | none => exact absurd h' id
      | some u => exact LWWRegister.Same.trans h h'

/-- What is read of `x` has a clock above what is read of `y`. A node that shows nothing is
covered by every other. -/
def Covers (x y : Option LWWRegister) : Prop := ∀ v ∈ y, ∃ w ∈ x, v.clock ≤ w.clock

theorem Covers.refl (x : Option LWWRegister) : Covers x x := fun v hv => ⟨v, hv, le_refl _⟩

theorem Covers.trans {x y z : Option LWWRegister} (h : Covers x y) (h' : Covers y z) :
    Covers x z := by
  intro u hu
  obtain ⟨v, hv, huv⟩ := h' u hu
  obtain ⟨w, hw, hvw⟩ := h v hv
  exact ⟨w, hw, huv.trans hvw⟩

/-- A node that shows `y` takes what a node that shows `x` sends, and shows `z`. The row
that is sent comes from a scan and the register that is shown from a point read, which need
not be the same bytes; `hsame` says that they are the same register. -/
inductive Takes : Option LWWRegister → Option LWWRegister → Option LWWRegister → Prop
  | nothing (y : Option LWWRegister) : Takes none y y
  | row (v r : LWWRegister) (y : Option LWWRegister) (hsame : v.Same r) :
    Takes (some v) y (some (ZenithDB.resolve r y))

variable {x y z : Option LWWRegister}

theorem Takes.covers (h : Takes x y z) : Covers z x ∧ Covers z y := by
  cases h with
  | nothing y => exact ⟨fun v hv => absurd hv (by simp), .refl y⟩
  | row v r y hsame =>
    constructor
    · intro u hu
      obtain rfl := Option.some.inj hu
      refine ⟨_, rfl, hsame.le.trans ?_⟩
      cases y with
      | none => exact le_refl _
      | some w => exact r.clock_le_merge_left w
    · intro w hw
      obtain rfl := Option.mem_def.mp hw
      exact ⟨_, rfl, r.clock_le_merge_right w⟩

/-- What is above both is above what comes of them. -/
theorem Takes.covered (h : Takes x y z) {k : Option LWWRegister} (hx : Covers k x)
    (hy : Covers k y) : Covers k z := by
  cases h with
  | nothing y => exact hy
  | row v r y hsame =>
    intro u hu
    obtain rfl := Option.some.inj hu
    obtain ⟨w, hw, hle⟩ := hx v rfl
    refine ⟨w, hw, ?_⟩
    cases y with
    | none => exact hsame.symm.le.trans hle
    | some v' =>
      obtain ⟨w', hw', hle'⟩ := hy v' rfl
      obtain rfl := Option.mem_unique hw hw'
      exact LWWRegister.clock_merge_le (hsame.symm.le.trans hle) hle'

/-- A node whose clock is not above the sender's shows what the sender shows. -/
theorem Takes.same (h : Takes x y z) (hcovers : Covers x y) : SameRead x z := by
  cases h with
  | nothing y =>
    cases y with
    | none => trivial
    | some w =>
      -- the sender shows nothing, so it covers nothing that is there
      obtain ⟨u, hu, -⟩ := hcovers w rfl
      exact absurd hu (by simp)
  | row v r y hsame =>
    cases y with
    | none => exact hsame
    | some w =>
      obtain ⟨u, hu, hle⟩ := hcovers w rfl
      obtain rfl := Option.some.inj hu
      exact hsame.trans (LWWRegister.same_merge_of_le (hle.trans hsame.le)).symm

-- ---------------------------------------------------------------------------
-- Schedules
-- ---------------------------------------------------------------------------

/-- What every node shows for one key. -/
abbrev View := NodeID → Option LWWRegister

/-- The exchanges of one key along a list of passes, each with its sender and its target. -/
inductive Exchanged : List (NodeID × NodeID) → View → View → Prop
  | done (v : View) : Exchanged [] v v
  | pass {e : NodeID × NodeID} {es : List (NodeID × NodeID)} {v v' v'' : View}
    (htakes : Takes (v e.1) (v e.2) (v' e.2)) (hothers : ∀ id, id ≠ e.2 → v' id = v id)
    (hrest : Exchanged es v' v'') : Exchanged (e :: es) v v''

/-- The nodes that have heard of what the nodes `known` showed first, directly or through
others. -/
def informed (known : List NodeID) : List (NodeID × NodeID) → List NodeID
  | [] => known
  | (sender, target) :: rest =>
    informed (if sender ∈ known then target :: known else known) rest

theorem mem_informed {known : List NodeID} {id : NodeID} (h : id ∈ known)
    (es : List (NodeID × NodeID)) : id ∈ informed known es := by
  induction es generalizing known with
  | nil => exact h
  | cons e es ih =>
    apply ih
    split
    · exact List.mem_cons_of_mem _ h
    · exact h

variable {es : List (NodeID × NodeID)} {v v' : View}

/-- **Dissemination**, by induction on the passes: whoever is informed covers it. -/
theorem Exchanged.covers (h : Exchanged es v v') {known : List NodeID}
    (hknown : ∀ id ∈ known, Covers (v id) x) : ∀ id ∈ informed known es, Covers (v' id) x := by
  induction h generalizing known with
  | done v => exact hknown
  | @pass e es v v' v'' htakes hothers _ ih =>
    -- those who knew it still do
    have hkept : ∀ id ∈ known, Covers (v' id) x := by
      intro id hid
      by_cases htarget : id = e.2
      · rw [htarget]
        exact htakes.covers.2.trans (htarget ▸ hknown id hid)
      · rw [hothers id htarget]
        exact hknown id hid
    apply ih
    split
    · next hsender =>
      exact List.forall_mem_cons.mpr ⟨htakes.covers.1.trans (hknown _ hsender), hkept⟩
    · exact hkept

/-- What covers all nodes goes on to cover them. -/
theorem Exchanged.covered (h : Exchanged es v v') {members : List NodeID}
    (hamong : ∀ e ∈ es, e.1 ∈ members ∧ e.2 ∈ members)
    (hmembers : ∀ id ∈ members, Covers x (v id)) : ∀ id ∈ members, Covers x (v' id) := by
  induction h with
  | done v => exact hmembers
  | @pass e es v v' v'' htakes hothers _ ih =>
    obtain ⟨⟨hsender, htarget⟩, hrest⟩ := List.forall_mem_cons.mp hamong
    refine ih hrest fun id hid => ?_
    by_cases heq : id = e.2
    · rw [heq]
      exact htakes.covered (hmembers _ hsender) (hmembers _ htarget)
    · rw [hothers id heq]
      exact hmembers id hid

/-- **Spreading.** One pass from a node that covers the others to each of them, by induction
on the others. No node gets two passes, so a node that is done stays as it is, and the hub
is sent nothing. -/
theorem Exchanged.spread {hub : NodeID} {others : List NodeID} (hnodup : (hub :: others).Nodup)
    (h : Exchanged (others.map fun id => (hub, id)) v v')
    (hcovers : ∀ id ∈ others, Covers (v hub) (v id)) :
    v' hub = v hub ∧ ∀ id ∈ others, SameRead (v hub) (v' id) := by
  -- the induction needs the nodes that get no pass as well
  suffices hall : v' hub = v hub ∧ (∀ id ∈ others, SameRead (v hub) (v' id)) ∧
      ∀ id, id ∉ others → v' id = v id from ⟨hall.1, hall.2.1⟩
  induction others generalizing v with
  | nil =>
    cases h
    exact ⟨rfl, fun _ hid => absurd hid List.not_mem_nil, fun _ _ => rfl⟩
  | cons b others ih =>
    cases h with
    | @pass _ _ _ w _ htakes hothers hrest =>
      obtain ⟨hhub, hnodup'⟩ := List.nodup_cons.mp hnodup
      obtain ⟨hb, hrestNodup⟩ := List.nodup_cons.mp hnodup'
      have hsame : ∀ id, id ≠ b → w id = v id := hothers
      have hhubSame : w hub = v hub := hsame hub fun heq => hhub (heq ▸ List.mem_cons_self ..)
      obtain ⟨hcoversb, hcovers⟩ := List.forall_mem_cons.mp hcovers
      obtain ⟨hhub', hdone, huntouched⟩ := ih
        (List.nodup_cons.mpr ⟨fun hmem => hhub (List.mem_cons_of_mem _ hmem), hrestNodup⟩) hrest
        fun id hid => by
          rw [hhubSame, hsame id fun heq => hb (heq ▸ hid)]
          exact hcovers id hid
      rw [hhubSame] at hhub' hdone
      refine ⟨hhub', List.forall_mem_cons.mpr ⟨?_, hdone⟩, fun id hid => ?_⟩
      · rw [huntouched b hb]
        exact htakes.same hcoversb
      · rw [List.mem_cons, not_or] at hid
        rw [huntouched id hid.2, hsame id hid.1]

-- ---------------------------------------------------------------------------
-- Passes over the transport
-- ---------------------------------------------------------------------------

variable {ids : List NodeID} {p : Platform} {c c' : Cluster}

/-- What a node shows for a key. A node that does not exist, or cannot be read, shows
nothing; the results are about nodes that answer. -/
def shown (c : Cluster) (key : Bytes) : View := fun id =>
  match c.nodes.get? id with
  | none => none
  | some node =>
    match node.db.getCrdt key with
    | .ok found => found
    | .error _ => none

theorem shown_of_getCrdt {id : NodeID} {node : Node} (hnode : c.nodes.get? id = some node)
    {key : Bytes} (hget : node.db.getCrdt key = .ok x) : c.shown key id = x := by
  simp only [shown, hnode, hget]

theorem shown_congr {id : NodeID} (h : c'.nodes.get? id = c.nodes.get? id) (key : Bytes) :
    c'.shown key id = c.shown key id := by
  unfold shown
  rw [h]

/-- A node that can be read. -/
def Answers (c : Cluster) (id : NodeID) : Prop :=
  ∃ node, c.nodes.get? id = some node ∧ ∀ key, ∃ found, node.db.getCrdt key = .ok found

theorem answers_of_readable {id : NodeID} {node : Node} (hnode : c.nodes.get? id = some node)
    (h : ZenithDB.Readable ids node.db) : c.Answers id :=
  ⟨node, hnode, fun key => (h key).imp fun _ hfound => hfound.1⟩

theorem convergedOn_iff_shown {A B : NodeID} (ha : c.Answers A) (hb : c.Answers B) (key : Bytes) :
    c.ConvergedOn A B key ↔ SameRead (c.shown key A) (c.shown key B) := by
  obtain ⟨a, hnode, hread⟩ := ha
  obtain ⟨b, hnode', hread'⟩ := hb
  obtain ⟨found, hget⟩ := hread key
  obtain ⟨found', hget'⟩ := hread' key
  rw [convergedOn_iff hnode hnode', shown_of_getCrdt hnode hget, shown_of_getCrdt hnode' hget',
    hget, hget']
  simp only [Except.ok.injEq, exists_and_left, exists_eq_left']

/-- One pass of a schedule. -/
structure Pass where
  sender : NodeID
  target : NodeID
  usage : Nat → Nat

def Pass.edge (s : Pass) : NodeID × NodeID := (s.sender, s.target)

/-- Clusters as a step system of passes. -/
def passSystem (p : Platform) : System Cluster Pass Empty Fault :=
  ⟨fun c s => c.push p s.sender s.target s.usage, fun _ _ => []⟩

/-- What the target receives takes the place of the frozen versions it has. It is a
condition on the state before the pass: the sender's rows are what its scan returns there,
and each of them is checked against the target as it is when its message arrives. -/
def Displaced (p : Platform) (c : Cluster) (s : Pass) : Prop :=
  ∀ a ∈ c.nodes.get? s.sender, ∀ b ∈ c.nodes.get? s.target, ∀ rows,
    a.db.scanCrdt p [] [0xFF] = .ok rows →
      (ZenithDB.system p).Along (fun _ => ZenithDB.Displacing) [] b.db
        (ZenithDB.receipts s.usage 0 rows)

instance (p : Platform) (c : Cluster) (s : Pass) : Decidable (Displaced p c s) :=
  inferInstanceAs (Decidable (∀ a ∈ c.nodes.get? s.sender, ∀ b ∈ c.nodes.get? s.target, ∀ rows,
    a.db.scanCrdt p [] [0xFF] = .ok rows →
      (ZenithDB.system p).Along (fun _ => ZenithDB.Displacing) [] b.db
        (ZenithDB.receipts s.usage 0 rows)))

/-- What a pass does for the keys that it sends, and for the others. -/
structure Passed (c c' : Cluster) (s : Pass) : Prop where
  takes : ∀ key, key ≤ [0xFF] →
    Takes (c.shown key s.sender) (c.shown key s.target) (c'.shown key s.target)
  above : ∀ key, [0xFF] < key → c'.shown key s.target = c.shown key s.target
  others : ∀ id, id ≠ s.target → c'.nodes.get? id = c.nodes.get? id
  queue : c'.queue = c.queue
  partitioned : c'.partitioned = c.partitioned
  answers : ∀ id, c.Answers id → c'.Answers id

/-- **One pass**, from a node whose versions are in order to one that can be read. -/
theorem push_passed {s : Pass} {a b : Node} (ha : c.nodes.get? s.sender = some a)
    (hordered : ZenithDB.Ordered ids a.db) (hb : c.nodes.get? s.target = some b)
    (hreadable : ZenithDB.Readable ids b.db) (hqueue : c.queue = [])
    (hpart : c.partitioned.get? s.target ≠ some true) :
    ∃ c' db', c.push p s.sender s.target s.usage = .ok c' ∧
      c'.nodes.get? s.target = some { b with db := db' } ∧ Passed c c' s ∧
      (ZenithDB.Ordered ids b.db → Displaced p c s → ZenithDB.Ordered ids db') := by
  obtain ⟨rows, hscan, hnodup, hshows⟩ := shows_of_ordered hordered p
  have hrows := hordered.scan_live hscan
  obtain ⟨db', hrun, hreceived⟩ := hreadable.receive p s.usage hrows hnodup 0
  obtain ⟨c', hpush, hreplaced⟩ := push_spec ha hb hqueue hpart hscan hrows hrun
  refine ⟨c', db', hpush, hreplaced.changed, ⟨fun key hkey => ?_, fun key hkey => ?_,
    hreplaced.others, hreplaced.queue, hreplaced.partitioned, fun id hid => ?_⟩,
    fun hb' hdisplaced => hb'.receive p s.usage hrows 0 (hdisplaced a ha b hb rows hscan) hrun⟩
  -- a key that the pass sends, or would send if the sender showed it
  · obtain ⟨found, hget, -⟩ := hordered.readable key
    obtain ⟨existing, hget', -⟩ := hreadable key
    rw [shown_of_getCrdt ha hget, shown_of_getCrdt hb hget']
    cases found with
    | none =>
      have hsame := hreceived.other key (hshows.not_mem hget)
      rw [shown_of_getCrdt hreplaced.changed (hsame.trans hget')]
      exact .nothing existing
    | some v =>
      obtain ⟨r, hr, hvr⟩ := hshows.live key v hkey hget
      rw [shown_of_getCrdt hreplaced.changed (hreceived.row key r existing hr hget')]
      exact .row v r existing hvr
  -- a key above the end of the scan
  · obtain ⟨existing, hget', -⟩ := hreadable key
    have hsame := hreceived.other key fun r hr => absurd (hshows.row key r hr).1 hkey.not_ge
    rw [shown_of_getCrdt hreplaced.changed (hsame.trans hget'), shown_of_getCrdt hb hget']
  · by_cases heq : id = s.target
    · refine ⟨_, heq ▸ hreplaced.changed, fun key => ?_⟩
      obtain ⟨existing, hget', -⟩ := hreadable key
      by_cases hrow : ∃ r, (key, r) ∈ rows
      · obtain ⟨r, hr⟩ := hrow
        exact ⟨_, hreceived.row key r existing hr hget'⟩
      · exact ⟨existing, (hreceived.other key (not_exists.mp hrow)).trans hget'⟩
    · obtain ⟨node, hnode, hread⟩ := hid
      exact ⟨node, (hreplaced.others id heq).trans hnode, hread⟩

/-- The members of the exchange can reach each other, and their versions are in order. -/
structure Ready (ids members : List NodeID) (c : Cluster) : Prop where
  queue : c.queue = []
  reachable : ∀ id ∈ members, c.partitioned.get? id ≠ some true
  ordered : ∀ id ∈ members, ∃ node, c.nodes.get? id = some node ∧ ZenithDB.Ordered ids node.db

/-- **A schedule** of passes among the members, by induction on it. That the members are
ready is kept by each pass whose rows displace what they meet; only then can its target be
the sender of a later one. -/
theorem schedule_spec {members : List NodeID} {schedule : List Pass}
    (hamong : ∀ s ∈ schedule, s.sender ∈ members ∧ s.target ∈ members)
    (hdisplaced : (passSystem p).Along (fun _ => Displaced p) [] c schedule)
    (h : c.Ready ids members) :
    ∃ c', (passSystem p).run c schedule = .ok c' ∧ c'.Ready ids members ∧
      (∀ key, key ≤ [0xFF] → Exchanged (schedule.map Pass.edge) (c.shown key) (c'.shown key)) ∧
      ∀ key, [0xFF] < key → c'.shown key = c.shown key := by
  induction schedule generalizing c with
  | nil => exact ⟨c, rfl, h, fun key _ => .done _, fun _ _ => rfl⟩
  | cons s schedule ih =>
    obtain ⟨⟨hsender, htarget⟩, hamong⟩ := List.forall_mem_cons.mp hamong
    obtain ⟨hfirst, hrest⟩ := hdisplaced
    obtain ⟨a, ha, haordered⟩ := h.ordered _ hsender
    obtain ⟨b, hb, hbordered⟩ := h.ordered _ htarget
    obtain ⟨d, db', hpush, hchanged, hpassed, hordered⟩ := push_passed (p := p) ha haordered hb
      hbordered.readable h.queue (h.reachable _ htarget)
    -- the target is in order again, and the others are as they were
    have hready : d.Ready ids members := by
      refine ⟨hpassed.queue.trans h.queue, fun id hid => ?_, fun id hid => ?_⟩
      · rw [hpassed.partitioned]
        exact h.reachable id hid
      · by_cases heq : id = s.target
        · rw [heq]
          exact ⟨_, hchanged, hordered hbordered hfirst⟩
        · rw [hpassed.others id heq]
          exact h.ordered id hid
    have hothers : ∀ key id, id ≠ s.target → d.shown key id = c.shown key id :=
      fun key id hid => shown_congr (hpassed.others id hid) key
    obtain ⟨c', hrun, hready', hexchanged, habove⟩ := ih hamong (hrest d hpush) hready
    refine ⟨c', (System.run_cons_ok (S := passSystem p) hpush schedule).trans hrun, hready',
      fun key hkey => ?_, fun key hkey => ?_⟩
    · exact .pass (hpassed.takes key hkey) (hothers key) (hexchanged key hkey)
    · rw [habove key hkey]
      funext id
      by_cases heq : id = s.target
      · rw [heq]
        exact hpassed.above key hkey
      · exact hothers key id heq

/-- **Passes from one node** to others, by induction on these. They do not have to be in
order afterwards, since none of them sends anything, and so no displacement is asked for. -/
theorem spread_spec {hub : NodeID} {others : List NodeID} (hnodup : (hub :: others).Nodup)
    (usage : NodeID → Nat → Nat) {a : Node} (hqueue : c.queue = [])
    (ha : c.nodes.get? hub = some a) (hordered : ZenithDB.Ordered ids a.db)
    (hothers : ∀ id ∈ others, c.partitioned.get? id ≠ some true ∧
      ∃ node, c.nodes.get? id = some node ∧ ZenithDB.Readable ids node.db) :
    ∃ c', (passSystem p).run c (others.map fun id => ⟨hub, id, usage id⟩) = .ok c' ∧
      (∀ key, key ≤ [0xFF] →
        Exchanged (others.map fun id => (hub, id)) (c.shown key) (c'.shown key)) ∧
      (∀ key, [0xFF] < key → c'.shown key = c.shown key) ∧
      ∀ id, c.Answers id → c'.Answers id := by
  -- one pass to each of the others; the hub is never a target, so its database stays as it is
  induction others generalizing c with
  | nil => exact ⟨c, rfl, fun key _ => .done _, fun _ _ => rfl, fun _ hid => hid⟩
  | cons id others ih =>
    obtain ⟨hhub, hnodup'⟩ := List.nodup_cons.mp hnodup
    obtain ⟨hid, hrestNodup⟩ := List.nodup_cons.mp hnodup'
    obtain ⟨⟨hpart, b, hb, hreadable⟩, hrest⟩ := List.forall_mem_cons.mp hothers
    obtain ⟨d, db', hpush, -, hpassed, -⟩ := push_passed (p := p) (s := ⟨hub, id, usage id⟩)
      ha hordered hb hreadable hqueue hpart
    have hsame : ∀ i, i ≠ id → d.nodes.get? i = c.nodes.get? i := hpassed.others
    obtain ⟨c', hrun, hexchanged, habove, hanswers⟩ := ih
      (List.nodup_cons.mpr ⟨fun hmem => hhub (List.mem_cons_of_mem _ hmem), hrestNodup⟩)
      (hpassed.queue.trans hqueue)
      ((hsame hub fun heq => hhub (heq ▸ List.mem_cons_self ..)).trans ha)
      fun i hi => by
        rw [hpassed.partitioned, hsame i fun heq => hid (heq ▸ hi)]
        exact hrest i hi
    refine ⟨c', (System.run_cons_ok (S := passSystem p) hpush _).trans hrun, fun key hkey => ?_,
      fun key hkey => ?_, fun i hi => hanswers i (hpassed.answers i hi)⟩
    · exact .pass (hpassed.takes key hkey) (fun i hi => shown_congr (hsame i hi) key)
        (hexchanged key hkey)
    · rw [habove key hkey]
      funext i
      by_cases heq : i = id
      · rw [heq]
        exact hpassed.above key hkey
      · exact shown_congr (hsame i heq) key

-- ---------------------------------------------------------------------------
-- Convergence
-- ---------------------------------------------------------------------------

/-- **Anti-entropy among many nodes.** In every state that a cluster of fresh nodes reaches
by orderly steps, with nothing in flight and all members reachable: after any schedule of
passes by which one node has heard of every other, directly or through others, and a pass
from it to each of them, all members show the same for all keys up to `"\xFF"`. Those above
are as they were.

Hypotheses:
* `hfresh`, `hrun` — the state is one that a run from empty directories reaches;
* `horderly` — on the way to it, local writes fit their length fields and do not wrap the
  counter, and what is delivered displaces the frozen versions of its key;
* `hnodup`, `hamong` — the members are different nodes, and passes are between them;
* `hqueue`, `hmembers` — no message arrives between the passes, and none is dropped for a
  partition;
* `hinformed` — along the passes of the schedule, the hub has heard of each member;
* `hdisplaced` — the rows of each pass of the schedule displace the frozen versions of their
  keys at the target, which `horderly` asks of deliveries before. -/
theorem gossip_converges {start : Cluster} {as : List Action} (hfresh : start.Fresh)
    (hrun : (system p).run start as = .ok c)
    (horderly : (system p).Along (fun _ => Orderly start.nodeIds) [] start as)
    {hub : NodeID} {others : List NodeID} (hnodup : (hub :: others).Nodup) (hqueue : c.queue = [])
    (hmembers : ∀ id ∈ hub :: others, (c.nodes.get? id).isSome ∧ c.partitioned.get? id ≠ some true)
    {schedule : List Pass}
    (hamong : ∀ s ∈ schedule, s.sender ∈ hub :: others ∧ s.target ∈ hub :: others)
    (hinformed : ∀ id ∈ others, hub ∈ informed [id] (schedule.map Pass.edge))
    (hdisplaced : (passSystem p).Along (fun _ => Displaced p) [] c schedule)
    (usage : NodeID → Nat → Nat) :
    ∃ c', (passSystem p).run c (schedule ++ others.map fun id => ⟨hub, id, usage id⟩) = .ok c' ∧
      ∀ A ∈ hub :: others, ∀ B ∈ hub :: others,
        (∀ key, key ≤ [0xFF] → c'.ConvergedOn A B key) ∧
        ∀ key, [0xFF] < key → (c'.ConvergedOn A B key ↔ c.ConvergedOn A B key) := by
  have hordered : c.Ordered start.nodeIds :=
    System.run_invariant (P := fun _ => Ordered start.nodeIds)
      (fun tr s act s' h hcond hstep => (h.step hcond).result hstep)
      (ordered_fresh hfresh) horderly hrun
  have hready : c.Ready start.nodeIds (hub :: others) := by
    refine ⟨hqueue, fun id hid => (hmembers id hid).2, fun id hid => ?_⟩
    obtain ⟨node, hnode⟩ := Option.isSome_iff_exists.mp (hmembers id hid).1
    exact ⟨node, hnode, hordered.nodes id node hnode⟩
  -- a member in order can be read, so it shows what a point read returns
  have hanswers : ∀ {d : Cluster}, d.Ready start.nodeIds (hub :: others) →
      ∀ id ∈ hub :: others, d.Answers id := by
    intro d hd id hid
    obtain ⟨node, hnode, hnodeOrdered⟩ := hd.ordered id hid
    exact answers_of_readable hnode hnodeOrdered.readable
  -- the schedule, and then the passes from the hub
  obtain ⟨d, hrun₁, hd, hexchanged, habove⟩ := schedule_spec hamong hdisplaced hready
  obtain ⟨a, ha, haordered⟩ := hd.ordered hub (List.mem_cons_self ..)
  have hothers : ∀ id ∈ others, d.partitioned.get? id ≠ some true ∧
      ∃ node, d.nodes.get? id = some node ∧ ZenithDB.Readable start.nodeIds node.db := by
    intro id hid
    obtain ⟨node, hnode, hnodeOrdered⟩ := hd.ordered id (List.mem_cons_of_mem _ hid)
    exact ⟨hd.reachable id (List.mem_cons_of_mem _ hid), node, hnode, hnodeOrdered.readable⟩
  obtain ⟨c', hrun₂, hspread, habove', hkept⟩ := spread_spec (p := p) hnodup usage hd.queue ha
    haordered hothers
  refine ⟨c', (System.run_append (S := passSystem p) hrun₁).trans hrun₂, fun A hA B hB => ?_⟩
  have hanswerA := hkept A (hanswers hd A hA)
  have hanswerB := hkept B (hanswers hd B hB)
  constructor
  · intro key hkey
    -- the hub covers what every node showed first, so it covers what they show now
    have hfirst : ∀ id ∈ hub :: others, Covers (d.shown key hub) (c.shown key id) := by
      have hfrom : ∀ id, hub ∈ informed [id] (schedule.map Pass.edge) →
          Covers (d.shown key hub) (c.shown key id) := by
        intro id hid
        have hself : ∀ i ∈ [id], Covers (c.shown key i) (c.shown key id) := by
          intro i hi
          rw [List.mem_singleton.mp hi]
          exact .refl _
        exact (hexchanged key hkey).covers hself hub hid
      exact List.forall_mem_cons.mpr ⟨hfrom hub (mem_informed (List.mem_singleton_self hub) _),
        fun id hid => hfrom id (hinformed id hid)⟩
    have hedges : ∀ e ∈ schedule.map Pass.edge, e.1 ∈ hub :: others ∧ e.2 ∈ hub :: others := by
      intro e he
      obtain ⟨s, hs, rfl⟩ := List.mem_map.mp he
      exact hamong s hs
    have hnow := (hexchanged key hkey).covered hedges hfirst
    -- so all take what the hub shows
    obtain ⟨hhub, hsame⟩ := (hspread key hkey).spread hnodup fun id hid =>
      hnow id (List.mem_cons_of_mem _ hid)
    have hall : ∀ id ∈ hub :: others, SameRead (d.shown key hub) (c'.shown key id) :=
      List.forall_mem_cons.mpr ⟨by rw [hhub]; exact .refl _, hsame⟩
    exact (convergedOn_iff_shown hanswerA hanswerB key).mpr ((hall A hA).symm.trans (hall B hB))
  · intro key hkey
    rw [convergedOn_iff_shown hanswerA hanswerB, habove' key hkey, habove key hkey,
      ← convergedOn_iff_shown (hanswers hready A hA) (hanswers hready B hB)]

theorem Fresh.insert (h : c.Fresh) (id : NodeID) (counter : Nat) (peers : List NodeID) :
    ({ c with nodes := c.nodes.insert id (Node.fresh id counter peers) } : Cluster).Fresh where
  nodes e he := by
    rcases SortedMap.mem_insertEntry he with rfl | he
    · exact ⟨counter, peers, rfl⟩
    · exact h.nodes e he
  queue := h.queue

/-- Three nodes that do not know each other. -/
def threeStrangers : Cluster :=
  { strangers with nodes := strangers.nodes.insert [67] (Node.fresh [67] 0 []) }

/-- Concurrent writes at three nodes; the first hears of the second through the third. -/
theorem gossip_converges_three_nodes :
    ∃ c c', (system .stable).run threeStrangers [.put [65] 0 [107] [118], .put [66] 0 [107] [119],
        .put [67] 0 [107] [120]] = .ok c ∧
      (passSystem .stable).run c ([⟨[66], [67], fun _ => 0⟩, ⟨[67], [65], fun _ => 0⟩] ++
        [[66], [67]].map fun id => ⟨[65], id, fun _ => 0⟩) = .ok c' ∧
      ∀ A ∈ [[65], [66], [67]], ∀ B ∈ [[65], [66], [67]],
        (∀ key, key ≤ [0xFF] → c'.ConvergedOn A B key) ∧
        ∀ key, [0xFF] < key → (c'.ConvergedOn A B key ↔ c.ConvergedOn A B key) := by
  obtain ⟨c, hrun⟩ := Except.exists_eq_ok (x := (system .stable).run threeStrangers
    [.put [65] 0 [107] [118], .put [66] 0 [107] [119], .put [67] 0 [107] [120]])
    (by decide +kernel)
  have hstate : ∀ c, (system .stable).run threeStrangers [.put [65] 0 [107] [118],
      .put [66] 0 [107] [119], .put [67] 0 [107] [120]] = .ok c → c.queue = [] ∧
        (∀ id ∈ [[65], [66], [67]],
          (c.nodes.get? id).isSome ∧ c.partitioned.get? id ≠ some true) ∧
        (passSystem .stable).Along (fun _ => Displaced .stable) [] c
          [⟨[66], [67], fun _ => 0⟩, ⟨[67], [65], fun _ => 0⟩] := by
    decide +kernel
  obtain ⟨hqueue, hmembers, hdisplaced⟩ := hstate c hrun
  obtain ⟨c', hrun', hconverged⟩ := gossip_converges (fresh_strangers.insert [67] 0 []) hrun
    (by decide +kernel) (by decide) hqueue hmembers (by decide) (by decide) hdisplaced
    fun _ _ => 0
  exact ⟨c, c', hrun, hrun', hconverged⟩

end Cluster

end Zenith
