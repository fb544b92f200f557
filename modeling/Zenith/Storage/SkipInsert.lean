import Zenith.Lib.Run
import Zenith.Storage.SkipList

/-!
# Zenith — insertion into the skip list

`SkipList::Insert` as the sequence of its stores: a reader on another thread may run between
any two of them. `insertStates` gives the state after each store, and `insert` the last one.

A new node is linked in from level 0 up, at each level its own pointer first and then that
of its predecessor. So the chains in between are those of a tower into which the node was
inserted at the lowest levels only (`Inserting`): after every store the pointers spell a
tower, and that is all the searches need.

A key that is there gets its value replaced in place, which is one store here. For a reader
on another thread it is two, a `string_view` being two words; the readers beside the writer
are modelled with both. To the thread that inserts there is no difference.

The height of a new node is a parameter: `randomHeight` is what the source draws it with,
from the values of `rand`, and `Height` the range of it. So what is proved of all heights
holds whatever `rand` returns.

The proofs go from one store (`Stored`: what it changes and what it leaves) over one level
(`Inserting.linkLevel`) and all levels (`Inserting.link`) to one insertion, and by induction
to any sequence. Main results: `Shows.insertStates` and `shows_insertAll`.
-/

namespace Zenith.SkipList

-- ---------------------------------------------------------------------------
-- The stores of an insertion
-- ---------------------------------------------------------------------------

/-- The heights of nodes. -/
abbrev Height := { h : Nat // 1 ≤ h ∧ h ≤ kMaxHeight }

/-- The loop of `RandomHeight`, on the values that `rand` returns. -/
def growHeight (height : Height) : List Nat → Height
  | [] => height
  | r :: rs =>
    if h : height.val < kMaxHeight ∧ r % 4 = 0 then growHeight ⟨height.val + 1, by omega⟩ rs
    else height

/-- `RandomHeight` -/
def randomHeight (rand : List Nat) : Height := growHeight ⟨1, by decide⟩ rand

/-- The node at the end of the heap; its pointers have no values yet. -/
def newNode (s : SkipList) (key value : Bytes) (height : Nat) : SkipList :=
  { s with nodes := s.nodes ++ [⟨key, value, List.replicate height none⟩] }

/-- The value of a node that is there is replaced in place. -/
def setValue (s : SkipList) (x : Addr) (value : Bytes) : Except Fault SkipList :=
  (s.nodeAt x).map fun n => { s with nodes := s.nodes.set x { n with value := value } }

/-- `prev[i]`, as far as it was filled in. -/
def prevAt (prev : List (Option Addr)) (i : Nat) : Except Fault Addr :=
  match prev[i]? with
  | some (some p) => .ok p
  | _ => .error .outOfBounds

/-- The levels above the old height are left at the head. -/
def fillHead (prev : List (Option Addr)) (maxHeight height : Nat) : List (Option Addr) :=
  prev.mapIdx fun i p => if maxHeight ≤ i ∧ i < height then some head else p

/-- Linking `x` in at one level: the states after each of the two stores. -/
def linkLevel (s : SkipList) (x : Addr) (prev : List (Option Addr)) (i : Nat) :
    Except Fault (SkipList × SkipList) := do
  let p ← prevAt prev i
  let s₁ ← s.setNext x i (← s.next p i)
  let s₂ ← s₁.setNext p i (some x)
  return (s₁, s₂)

/-- The loop over the levels, with `n` levels to go from level `i` on: the state
after each store. -/
def link (x : Addr) (prev : List (Option Addr)) : Nat → Nat → SkipList →
    Except Fault (List SkipList)
  | 0, _, _ => .ok []
  | n + 1, i, s => do
    let (s₁, s₂) ← s.linkLevel x prev i
    return s₁ :: s₂ :: (← link x prev n (i + 1) s₂)

/-- `Insert`: the state after each store. -/
def insertStates (s : SkipList) (key value : Bytes) (height : Height) :
    Except Fault (List SkipList) := do
  let (x, prev) ← s.findGreaterOrEqual key
  match ← s.holding key x with
  | some x => return [← s.setValue x value]
  | none =>
    let s₁ := { s with maxHeight := max s.maxHeight height }
    let s₂ := s₁.newNode key value height
    return s₁ :: s₂ :: (← link s.nodes.length (fillHead prev s.maxHeight height) height 0 s₂)

/-- What `Insert` leaves behind. -/
def insert (s : SkipList) (key value : Bytes) (height : Height) : Except Fault SkipList :=
  (s.insertStates key value height).map fun states => states.getLastD s

-- ---------------------------------------------------------------------------
-- What a store changes
-- ---------------------------------------------------------------------------

/-- The keys, values and heights of a heap, with the pointer of `x` at level `i` set. -/
structure Stored (s : SkipList) (x : Addr) (i : Nat) (y : Option Addr) (s' : SkipList) : Prop where
  maxHeight : s'.maxHeight = s.maxHeight
  length : s'.nodes.length = s.nodes.length
  node : ∀ (z : Addr) (n : Node), s.nodes[z]? = some n →
    ∃ next, s'.nodes[z]? = some { n with next := next } ∧ next.length = n.next.length
  self : s'.next x i = .ok y
  other : ∀ z j, (z ≠ x ∨ j ≠ i) → s'.next z j = s.next z j

/-- A pointer is read from its node. -/
theorem next_of_node {s : SkipList} {x : Addr} {n : Node} (hn : s.nodes[x]? = some n) {i : Nat}
    {y : Option Addr} (hi : n.next[i]? = some (some y)) : s.next x i = .ok y := by
  rw [next, nodeAt_eq_ok_iff.mpr hn, Except.ok_bind, hi]

/-- A pointer can be set where the node has one. -/
theorem setNext_spec {s : SkipList} {x : Addr} {n : Node} (hn : s.nodes[x]? = some n) {i : Nat}
    (hi : i < n.next.length) (y : Option Addr) :
    ∃ s', s.setNext x i y = .ok s' ∧ Stored s x i y s' := by
  obtain ⟨hx, -⟩ := List.getElem?_eq_some_iff.mp hn
  refine ⟨{ s with nodes := s.nodes.set x { n with next := n.next.set i (some y) } }, ?_, rfl,
    List.length_set, fun z m hm => ?_, ?_, fun z j hzj => ?_⟩
  · rw [setNext, nodeAt_eq_ok_iff.mpr hn, Except.ok_bind]
    exact if_pos hi
  · by_cases hz : x = z
    · subst hz
      rw [hn] at hm
      obtain rfl := Option.some.inj hm
      exact ⟨_, List.getElem?_set_self hx, List.length_set⟩
    · exact ⟨m.next, by rw [List.getElem?_set_ne hz, hm], rfl⟩
  · exact next_of_node (List.getElem?_set_self hx) (List.getElem?_set_self hi)
  · by_cases hz : x = z
    · subst hz
      have hj : i ≠ j := fun heq => hzj.elim (fun h => h rfl) fun h => h heq.symm
      simp only [next, nodeAt, List.getElem?_set_self hx, hn, Except.ok_bind,
        List.getElem?_set_ne hj]
    · simp only [next, nodeAt, List.getElem?_set_ne hz]

/-- The slot of a pointer that was read. -/
theorem slot_of_next {s : SkipList} {x : Addr} {i : Nat} {y : Option Addr}
    (h : s.next x i = .ok y) : ∃ n, s.nodes[x]? = some n ∧ i < n.next.length := by
  obtain ⟨n, hn, hy⟩ := Except.bind_eq_ok_iff.mp h
  refine ⟨n, nodeAt_eq_ok_iff.mp hn, ?_⟩
  by_contra hi
  rw [List.getElem?_eq_none (not_lt.mp hi)] at hy
  exact absurd hy (by simp)

/-- What is shown of a node that is there does not depend on its pointers. -/
theorem Stored.shown {s s' : SkipList} {x : Addr} {i : Nat} {y : Option Addr}
    (h : Stored s x i y s') {z : Link} {n : Node} (hn : s.nodes[z.1]? = some n) :
    s'.shown z = s.shown z := by
  obtain ⟨next, hnext, -⟩ := h.node z.1 n hn
  rw [SkipList.shown, SkipList.shown, hn, hnext]
  rfl

namespace Spells

variable {s s' : SkipList} {t : Chains}

/-- A taller list, with nothing at its upper levels. -/
theorem raise (h : Spells s t) (height : Height) :
    Spells { s with maxHeight := max s.maxHeight height } t :=
  ⟨h.one_le.trans (le_max_left _ _), max_le h.le_max height.property.2, h.node, h.next,
    fun i hi => h.top i ((le_max_left _ _).trans hi)⟩

/-- A node more, which no pointer leads to. -/
theorem newNode (h : Spells s t) (key value : Bytes) (height : Nat) :
    Spells (s.newNode key value height) t := by
  have hold : ∀ z < s.nodes.length, (s.newNode key value height).nodes[z]? = s.nodes[z]? :=
    fun z hz => List.getElem?_append_left hz
  refine ⟨h.one_le, h.le_max, fun x hx => ?_, fun i hi l x r hsplit => ?_, h.top⟩
  · obtain ⟨hne, n, hn, hkey⟩ := h.node x hx
    refine ⟨hne, n, ?_, hkey⟩
    rw [hold x.1 (List.getElem?_eq_some_iff.mp hn).1, hn]
  · have hnext := h.next i hi l x r hsplit
    rw [← hnext, SkipList.next, SkipList.next, SkipList.nodeAt, SkipList.nodeAt,
      hold x.1 (lt_length_of_next hnext)]

/-- The pointer of a node that is not in the chain. -/
theorem store_outside (h : Spells s t) {x : Addr} {i : Nat} {y : Option Addr}
    (hstored : Stored s x i y s') (hx : ∀ z ∈ headLink :: t.level i, z.1 ≠ x) : Spells s' t := by
  refine ⟨hstored.maxHeight ▸ h.one_le, hstored.maxHeight ▸ h.le_max, fun z hz => ?_,
    fun j hj l z r hsplit => ?_, fun j hj => h.top j (hstored.maxHeight ▸ hj)⟩
  · obtain ⟨hne, n, hn, hkey⟩ := h.node z hz
    obtain ⟨next, hn', -⟩ := hstored.node z.1 n hn
    exact ⟨hne, _, hn', hkey⟩
  · rw [hstored.other z.1 j ?_]
    · exact h.next j hj l z r hsplit
    · by_cases hij : j = i
      · subst hij
        exact .inl (hx z (by rw [hsplit]; simp))
      · exact .inr hij

/-- **The node is linked in at one more level**, when its own pointer is set. -/
theorem link_in {l : Link} {n : Nat} {hnew : ∀ z ∈ t.level 0, z.2 ≠ l.2}
    (h : Spells s (t.insert l n hnew)) (hn : n < kMaxHeight) (hmax : n < s.maxHeight)
    {node : Node} (hnode : s.nodes[l.1]? = some node) (hkey : node.key = l.2) (hhead : l.1 ≠ head)
    (hfresh : ∀ z ∈ headLink :: t.level n, z.1 ≠ l.1)
    (hnext : s.next l.1 n = .ok (ahead t (Tower.before l.2) n))
    (hstored : Stored s (stop t (Tower.before l.2) n).1 n (some l.1) s') :
    Spells s' (t.insert l (n + 1) hnew) := by
  -- the node was linked in below, so this level is as it was
  have hlevel : (t.insert l n hnew).level n = t.level n := t.insertLevel_of_le l le_rfl
  have hnodup := h.nodup n
  have hbelow := h.next n hn
  rw [hlevel] at hnodup hbelow
  refine ⟨hstored.maxHeight ▸ h.one_le, hstored.maxHeight ▸ h.le_max, fun z hz => ?_,
    fun j hj a z b hsplit => ?_, fun j hj => ?_⟩
  · -- a store keeps the keys of the nodes
    have hold : z.1 ≠ head ∧ ∃ m, s.nodes[z.1]? = some m ∧ m.key = z.2 := by
      rcases Tower.mem_insertLevel (show z ∈ t.insertLevel l (n + 1) 0 from hz) with rfl | hz
      · exact ⟨hhead, node, hnode, hkey⟩
      · exact h.node z ((t.level_sublist_insertLevel l n 0).subset hz)
    obtain ⟨hne, m, hm, hmkey⟩ := hold
    obtain ⟨next, hm', -⟩ := hstored.node z.1 m hm
    exact ⟨hne, _, hm', hmkey⟩
  · rcases eq_or_ne j n with rfl | hjn
    · -- at this level: the predecessor, the node and everything around the two
      obtain ⟨c, hc⟩ : ∃ c, headLink :: t.passed (Tower.before l.2) j =
          c ++ [stop t (Tower.before l.2) j] :=
        ⟨(headLink :: t.passed (Tower.before l.2) j).dropLast, by
          rw [stop, ← List.getLast_eq_getLastD (List.cons_ne_nil _ _),
            List.dropLast_append_getLast]⟩
      set p := stop t (Tower.before l.2) j
      have hchain : headLink :: t.level j = c ++ p :: t.rest (Tower.before l.2) j := by
        rw [t.level_eq (Tower.downward_before l.2) j, ← List.cons_append, hc, List.append_assoc]
        rfl
      rw [hchain, List.map_append, List.map_cons, List.nodup_append, List.nodup_cons] at hnodup
      obtain ⟨-, ⟨hrest, -⟩, hfront⟩ := hnodup
      have hsplit' : c ++ p :: l :: t.rest (Tower.before l.2) j = a ++ z :: b := by
        rw [← hsplit, Tower.insert_level, Tower.insertLevel_succ, ← List.cons_append, hc,
          List.append_assoc]
        rfl
      -- where the pointer read is: in front of the predecessor, at it, or behind
      rcases List.split_at_seam hsplit' with ⟨d, rfl, rfl⟩ | ⟨rfl, rfl⟩ | ⟨rfl, rfl⟩ | ⟨d, hd⟩
      · -- in front of the predecessor
        have hzp : z.1 ≠ p.1 := hfront z.1 (by simp) p.1 List.mem_cons_self
        have hold := hbelow a z (d ++ p :: t.rest (Tower.before l.2) j) (by
          rw [hchain, List.append_assoc, List.cons_append])
        rw [hstored.other z.1 j (.inl hzp), hold]
        cases d <;> rfl
      · -- the predecessor itself
        exact hstored.self
      · -- the new node, whose pointer was set before
        have hpmem : p ∈ headLink :: t.level j := by simp [hchain]
        rw [hstored.other z.1 j (.inl (hfresh p hpmem).symm)]
        exact hnext
      · -- behind the new node
        have hzp : z.1 ≠ p.1 := fun heq =>
          hrest (heq ▸ List.mem_map_of_mem (by simp [hd]))
        rw [hstored.other z.1 j (.inl hzp)]
        exact hbelow (c ++ p :: d) z b (by rw [hchain, hd, List.append_assoc, List.cons_append])
    · -- other levels keep their chain
      rw [hstored.other z.1 j (.inr hjn)]
      refine h.next j hj a z b ?_
      rw [← hsplit, Tower.insert_level, Tower.insert_level, t.insertLevel_succ_of_ne l hjn]
  · rw [hstored.maxHeight] at hj
    rw [Tower.insert_level, t.insertLevel_succ_of_ne l (by omega)]
    exact h.top j hj

end Spells

-- ---------------------------------------------------------------------------
-- The states of an insertion
-- ---------------------------------------------------------------------------

/-- The node `l` is there with its value and linked in at the lowest `n` levels of
the chains `t`; the other nodes show what they did in `base`. -/
structure Inserting (base : SkipList) (t : Chains) (l : Link)
    (hnew : ∀ z ∈ t.level 0, z.2 ≠ l.2) (value : Bytes) (height : Nat) (n : Nat)
    (s : SkipList) : Prop where
  spells : Spells s (t.insert l n hnew)
  node : ∃ node, s.nodes[l.1]? = some node ∧ node.key = l.2 ∧ node.value = value ∧
    node.next.length = height
  old : ∀ z ∈ t.level 0, s.shown z = base.shown z
  height_le : height ≤ s.maxHeight

/-- A new address. -/
def Fresh (t : Chains) (x : Addr) : Prop := x ≠ head ∧ ∀ z ∈ t.level 0, z.1 ≠ x

namespace Inserting

variable {base s s' : SkipList} {t : Chains} {l : Link} {hnew : ∀ z ∈ t.level 0, z.2 ≠ l.2}
  {value : Bytes} {height n : Nat} {prev : List (Option Addr)}

/-- A store keeps what the nodes show. -/
theorem stored (h : Inserting base t l hnew value height n s) {x : Addr} {i : Nat}
    {y : Option Addr} (hstored : Stored s x i y s') {m : Nat}
    (hspells : Spells s' (t.insert l m hnew)) : Inserting base t l hnew value height m s' := by
  refine ⟨hspells, ?_, fun z hz => ?_, hstored.maxHeight ▸ h.height_le⟩
  · obtain ⟨node, hnode, hkey, hvalue, hlen⟩ := h.node
    obtain ⟨next, hnext, hlen'⟩ := hstored.node l.1 node hnode
    exact ⟨_, hnext, hkey, hvalue, hlen'.trans hlen⟩
  · obtain ⟨-, m, hm, -⟩ := h.spells.node z ((t.level_sublist_insertLevel l n 0).subset hz)
    rw [hstored.shown hm, h.old z hz]

/-- **One level**: after the first store nothing has changed for a reader, after the
second the node is linked in at this level. -/
theorem linkLevel (h : Inserting base t l hnew value height n s) (hfresh : Fresh t l.1)
    (hn : n < height) (hprev : prev[n]? = some (some (stop t (Tower.before l.2) n).1)) :
    ∃ s₁ s₂, s.linkLevel l.1 prev n = .ok (s₁, s₂) ∧
      Inserting base t l hnew value height n s₁ ∧
      Inserting base t l hnew value height (n + 1) s₂ := by
  have hmax : n < s.maxHeight := hn.trans_le h.height_le
  have hk : n < kMaxHeight := hmax.trans_le h.spells.le_max
  have hlevel : (t.insert l n hnew).level n = t.level n := t.insertLevel_of_le l le_rfl
  have hpassed : (t.insert l n hnew).passed (Tower.before l.2) n = t.passed (Tower.before l.2) n := by
    rw [Tower.passed, hlevel, Tower.passed]
  have hrest : (t.insert l n hnew).rest (Tower.before l.2) n = t.rest (Tower.before l.2) n := by
    rw [Tower.rest, hlevel, Tower.rest]
  have houtside : ∀ z ∈ headLink :: t.level n, z.1 ≠ l.1 := by
    intro z hz
    rcases List.mem_cons.mp hz with rfl | hz
    · exact hfresh.1.symm
    · exact hfresh.2 z (t.mem_zero hz)
  set p := stop t (Tower.before l.2) n with hp
  have hpnext : s.next p.1 n = .ok (ahead t (Tower.before l.2) n) := by
    have := h.spells.next_stop (Tower.downward_before l.2) hk
    rwa [stop, ahead, hpassed, hrest] at this
  obtain ⟨node, hnode, hkey, -, hlen⟩ := h.node
  -- the node's own pointer: no chain of this level leads to it yet
  obtain ⟨s₁, hs₁, hstored₁⟩ := setNext_spec hnode (i := n) (by omega) (ahead t (Tower.before l.2) n)
  have h₁ : Inserting base t l hnew value height n s₁ :=
    h.stored hstored₁ (h.spells.store_outside hstored₁ (by rwa [hlevel]))
  -- the predecessor's pointer
  have hpne : p.1 ≠ l.1 := houtside p
    (((List.filter_sublist (l := t.level n)).cons_cons headLink).subset (stop_mem t _ n))
  have hpnext₁ := (hstored₁.other p.1 n (.inl hpne)).trans hpnext
  obtain ⟨pnode, hpnode, hslot⟩ := slot_of_next hpnext₁
  obtain ⟨s₂, hs₂, hstored₂⟩ := setNext_spec hpnode hslot (some l.1)
  obtain ⟨next, hnode₁, -⟩ := hstored₁.node l.1 node hnode
  have h₂ := h₁.spells.link_in hk (hstored₁.maxHeight ▸ hmax) hnode₁ hkey hfresh.1 houtside
    hstored₁.self hstored₂
  refine ⟨s₁, s₂, ?_, h₁, h₁.stored hstored₂ h₂⟩
  rw [SkipList.linkLevel, prevAt, hprev, Except.ok_bind, hpnext, Except.ok_bind, hs₁,
    Except.ok_bind, hs₂]
  rfl

/-- **All levels.** By induction on the levels to go. -/
theorem link (h : Inserting base t l hnew value height n s) (hfresh : Fresh t l.1) {k : Nat}
    (hk : n + k = height)
    (hprev : ∀ j < height, prev[j]? = some (some (stop t (Tower.before l.2) j).1)) :
    ∃ states, SkipList.link l.1 prev k n s = .ok states ∧
      (∀ s' ∈ states, ∃ m, Inserting base t l hnew value height m s') ∧
      Inserting base t l hnew value height height (states.getLastD s) := by
  induction k generalizing n s with
  | zero =>
    obtain rfl : n = height := by omega
    exact ⟨[], rfl, fun s' hs' => absurd hs' List.not_mem_nil, h⟩
  | succ k ih =>
    obtain ⟨s₁, s₂, hlink, h₁, h₂⟩ := h.linkLevel hfresh (by omega) (hprev n (by omega))
    obtain ⟨states, hstates, hall, hlast⟩ := ih h₂ (by omega)
    refine ⟨s₁ :: s₂ :: states, ?_, ?_, ?_⟩
    · simp only [SkipList.link, hlink, Except.ok_bind, hstates]
      rfl
    · intro s' hs'
      rcases List.mem_cons.mp hs' with rfl | hs'
      · exact ⟨n, h₁⟩
      rcases List.mem_cons.mp hs' with rfl | hs'
      · exact ⟨n + 1, h₂⟩
      · exact hall s' hs'
    · rw [List.getLastD_cons, List.getLastD_cons]
      exact hlast

/-- The entries: the old ones, from the first level on with the new one. -/
theorem entries_eq (h : Inserting base t l hnew value height n s) :
    s.entries (t.insert l n hnew) =
      if n = 0 then base.entries t
      else SortedMap.insertEntry l.2 value (base.entries t) := by
  have hold : ∀ m : List Link, (∀ z ∈ m, z ∈ t.level 0) →
      (m.map fun z => (s.shown z).2) = m.map fun z => (base.shown z).2 := fun m hm =>
    List.map_congr_left fun z hz => congrArg Prod.snd (h.old z (hm z hz))
  -- at level 0 it is linked in first
  cases n with
  | zero =>
    rw [if_pos rfl, entries, Tower.insert_level, t.insertLevel_of_le l le_rfl]
    exact hold (t.level 0) fun z hz => hz
  | succ n =>
    obtain ⟨node, hnode, hkey, hvalue, -⟩ := h.node
    have hself : (s.shown l).2 = (l.2, value) := by
      rw [shown, hnode, ← hvalue]
      rfl
    have hlevel : (t.insert l (n + 1) hnew).level 0 = t.below l.2 0 ++ l :: t.above l.2 0 := by
      rw [Tower.insert_level, Tower.insertLevel, if_pos (Nat.succ_pos n)]
    have hentries : base.entries t = (t.below l.2 0).map (fun z => (base.shown z).2) ++
        (t.above l.2 0).map fun z => (base.shown z).2 := by
      rw [← List.map_append, ← t.level_eq_below l.2 0]
      rfl
    rw [if_neg (Nat.succ_ne_zero n), entries, hlevel, List.map_append, List.map_cons, hself,
      hold (t.below l.2 0) fun z hz => (Tower.of_mem_passed hz).1,
      hold (t.above l.2 0) fun z hz => (Tower.of_mem_rest hz).1, hentries]
    -- at level 0 the new node stands between the smaller keys and the larger ones
    refine (SortedMap.insertEntry_between value (fun e he => ?_) fun e he => ?_).symm
    · obtain ⟨z, hz, rfl⟩ := List.mem_map.mp he
      exact (Tower.lt_of_mem_below hz : z.2 < l.2)
    · obtain ⟨z, hz, rfl⟩ := List.mem_map.mp he
      have hle : l.2 ≤ z.2 := Tower.le_of_mem_above hz
      exact lt_of_le_of_ne hle (hnew z (Tower.of_mem_rest hz).1).symm

end Inserting

-- ---------------------------------------------------------------------------
-- Insert
-- ---------------------------------------------------------------------------

/-- What a reader of `s` sees: the chains of a tower, with these entries. -/
def Shows (s : SkipList) (content : SortedMap Bytes Bytes) : Prop :=
  ∃ t, Spells s t ∧ s.entries t = content.toList

section Insert

variable {s : SkipList} {t : Chains} {key value : Bytes} {height : Height}

/-- The array `prev`, with the levels above the old height left at the head. -/
theorem fillHead_spec (h : Spells s t) {prev : List (Option Addr)}
    (hlen : prev.length = kMaxHeight)
    (hprev : ∀ j < s.maxHeight, prev[j]? = some (some (stop t (Tower.before key) j).1))
    (j : Nat) (hj : j < height.val) :
    (fillHead prev s.maxHeight height)[j]? = some (some (stop t (Tower.before key) j).1) := by
  have hjk : j < prev.length := by
    have := height.property.2
    omega
  rw [fillHead, List.getElem?_mapIdx]
  by_cases hmax : s.maxHeight ≤ j
  · have hstop : stop t (Tower.before key) j = headLink := by
      rw [stop, Tower.passed, h.top j hmax]
      rfl
    rw [List.getElem?_eq_getElem hjk, Option.map_some, if_pos ⟨hmax, hj⟩, hstop]
    rfl
  · rw [hprev j (not_le.mp hmax), Option.map_some, if_neg fun hin => hmax hin.1]

/-- Without any level linked in the new entry is not shown, and with one it is. -/
theorem Inserting.shows {base : SkipList} {content : SortedMap Bytes Bytes} {n : Nat}
    (hbase : base.entries t = content.toList) {l : Link} {hnew : ∀ z ∈ t.level 0, z.2 ≠ l.2}
    (h : Inserting base t l hnew value height n s) :
    (n = 0 → s.Shows content) ∧ (n ≠ 0 → s.Shows (content.insert l.2 value)) := by
  have hentries := h.entries_eq
  rw [hbase] at hentries
  refine ⟨fun hn => ⟨_, h.spells, ?_⟩, fun hn => ⟨_, h.spells, ?_⟩⟩
  · rw [hentries, if_pos hn]
  · rw [hentries, if_neg hn]
    rfl

/-- **A new key**: every state shows the entries without it or with it. -/
theorem insertStates_new (h : Spells s t) {content : SortedMap Bytes Bytes}
    (hcontent : s.entries t = content.toList) (hnew : ∀ z ∈ t.level 0, z.2 ≠ key) (value : Bytes)
    (height : Height) :
    ∃ states, s.insertStates key value height = .ok states ∧
      (∀ s' ∈ states, s'.Shows content ∨ s'.Shows (content.insert key value)) ∧
      (states.getLastD s).Shows (content.insert key value) := by
  obtain ⟨prev, hfind, hlen, hprev⟩ := h.findGreaterOrEqual_spec key
  set s₁ : SkipList := { s with maxHeight := max s.maxHeight height } with hs₁
  set s₂ : SkipList := s₁.newNode key value height with hs₂
  have hraise : Spells s₁ t := h.raise height
  have hold : ∀ z ∈ t.level 0, z.1 < s.nodes.length := fun z hz => by
    obtain ⟨-, n, hn, -⟩ := h.node z hz
    exact (List.getElem?_eq_some_iff.mp hn).1
  -- the address is the first that is free
  have hfresh : Fresh t s.nodes.length :=
    ⟨(Nat.zero_lt_of_lt (h.length_lt 0)).ne', fun z hz => (hold z hz).ne⟩
  -- the allocated node is on no chain yet
  have h₂ : Inserting s t (s.nodes.length, key) hnew value height 0 s₂ := by
    refine ⟨?_, ⟨_, List.getElem?_concat_length, rfl, rfl, List.length_replicate⟩, fun z hz => ?_,
      le_max_right _ _⟩
    · rw [Tower.insert_zero]
      exact hraise.newNode key value height
    · rw [shown, shown, hs₂, newNode, List.getElem?_append_left (hold z hz)]
  obtain ⟨states, hstates, hall, hlast⟩ := h₂.link hfresh (Nat.zero_add height.val)
    (fillHead_spec h hlen hprev)
  refine ⟨s₁ :: s₂ :: states, ?_, fun s' hs' => ?_, ?_⟩
  · rw [insertStates, hfind, Except.ok_bind]
    simp only [h.holding_of_forall_ne hnew, Except.ok_bind]
    rw [hstates]
    rfl
  · -- raised and allocated: nothing is shown before the first link
    rcases List.mem_cons.mp hs' with rfl | hs'
    · exact .inl ⟨t, hraise, hcontent⟩
    rcases List.mem_cons.mp hs' with rfl | hs'
    · exact .inl ((h₂.shows hcontent).1 rfl)
    · obtain ⟨m, hm⟩ := hall s' hs'
      by_cases hzero : m = 0
      · exact .inl ((hm.shows hcontent).1 hzero)
      · exact .inr ((hm.shows hcontent).2 hzero)
  · rw [List.getLastD_cons, List.getLastD_cons]
    have hpos := height.property.1
    exact (hlast.shows hcontent).2 (by omega)

/-- A value replaced: the same chains, and the value at its place. -/
theorem Spells.setValue (h : Spells s t) {l r : List Link} {x : Link}
    (hsplit : t.level 0 = l ++ x :: r) (value : Bytes) :
    ∃ s', s.setValue x.1 value = .ok s' ∧ Spells s' t ∧
      (∀ z ∈ t.level 0, z.2 ≠ x.2 → s'.shown z = s.shown z) ∧
      s'.entries t = (l.map fun z => (s.shown z).2) ++ (x.2, value) ::
        r.map fun z => (s.shown z).2 := by
  obtain ⟨-, n, hn, hkey⟩ := h.node x (by simp [hsplit])
  obtain ⟨hx, -⟩ := List.getElem?_eq_some_iff.mp hn
  set s' : SkipList := { s with nodes := s.nodes.set x.1 { n with value := value } } with hs'
  have hself : s'.nodes[x.1]? = some { n with value := value } := List.getElem?_set_self hx
  have hother : ∀ z : Addr, z ≠ x.1 → s'.nodes[z]? = s.nodes[z]? := fun z hz =>
    List.getElem?_set_ne hz.symm
  refine ⟨s', ?_, ⟨h.one_le, h.le_max, fun z hz => ?_, fun i hi a z b hz => ?_, h.top⟩,
    fun z hz hzx => ?_, ?_⟩
  · rw [SkipList.setValue, nodeAt_eq_ok_iff.mpr hn]
    rfl
  · obtain ⟨hne, m, hm, hmkey⟩ := h.node z hz
    by_cases hzx : z.1 = x.1
    · -- the node written keeps its key
      rw [hzx] at hm ⊢
      rw [hn] at hm
      obtain rfl := Option.some.inj hm
      exact ⟨hzx ▸ hne, _, hself, hmkey⟩
    · exact ⟨hne, m, by rw [hother z.1 hzx, hm], hmkey⟩
  · rw [← h.next i hi a z b hz]
    -- no pointer was stored, so the chains are as they were
    by_cases hzx : z.1 = x.1
    · rw [hzx]
      simp only [SkipList.next, SkipList.nodeAt, hself, hn, Except.ok_bind]
    · simp only [SkipList.next, SkipList.nodeAt, hother z.1 hzx]
  · -- another key is at another address
    obtain ⟨-, m, hm, hmkey⟩ := h.node z hz
    have hne : z.1 ≠ x.1 := fun heq => by
      rw [heq, hn] at hm
      obtain rfl := Option.some.inj hm
      exact hzx (hmkey.symm.trans hkey)
    rw [shown, shown, hother z.1 hne]
  · -- no other node of the chain has its address, so only its pair changes
    have hnodup := h.nodup 0
    rw [hsplit, List.map_cons, List.nodup_cons, List.map_append, List.map_cons, List.nodup_append,
      List.nodup_cons] at hnodup
    obtain ⟨-, -, ⟨hr, -⟩, hl⟩ := hnodup
    have hshown : ∀ z : Link, z.1 ≠ x.1 → (s'.shown z).2 = (s.shown z).2 := fun z hz => by
      rw [shown, shown, hother z.1 hz]
    have hvalue : (s'.shown x).2 = (x.2, value) := by
      rw [shown, hself]
      rfl
    rw [entries, hsplit, List.map_append, List.map_cons, hvalue]
    congr 1
    · exact List.map_congr_left fun z hz =>
        hshown z (hl z.1 (List.mem_map_of_mem hz) x.1 List.mem_cons_self)
    · congr 1
      exact List.map_congr_left fun z hz =>
        hshown z fun heq => hr (heq ▸ List.mem_map_of_mem hz)

/-- **A key that is there**: its value is replaced by one store. -/
theorem insertStates_old (h : Spells s t) {content : SortedMap Bytes Bytes}
    (hcontent : s.entries t = content.toList) {x : Link} (hx : x ∈ t.level 0) (value : Bytes)
    (height : Height) :
    ∃ s', s.insertStates x.2 value height = .ok [s'] ∧ s'.Shows (content.insert x.2 value) := by
  obtain ⟨prev, hfind, -⟩ := h.findGreaterOrEqual_spec x.2
  obtain ⟨l, r, hsplit⟩ := List.append_of_mem hx
  obtain ⟨s', hset, hspells, -, hentries⟩ := h.setValue hsplit value
  refine ⟨s', ?_, t, hspells, ?_⟩
  · rw [insertStates, hfind, Except.ok_bind]
    simp only [h.holding_of_mem hx, Except.ok_bind, hset]
    rfl
  · have hl : ∀ e ∈ l.map fun z => (s.shown z).2, e.1 < x.2 := by
      have hasc := t.asc
      rw [hsplit, List.pairwise_append] at hasc
      intro e he
      obtain ⟨z, hz, rfl⟩ := List.mem_map.mp he
      exact hasc.2.2 z hz x List.mem_cons_self
    have hold : content.toList = (l.map fun z => (s.shown z).2) ++
        (x.2, (s.shown x).2.2) :: r.map fun z => (s.shown z).2 := by
      rw [← hcontent, entries, hsplit, List.map_append, List.map_cons]
      rfl
    show _ = SortedMap.insertEntry x.2 value content.toList
    rw [hentries, hold, SortedMap.insertEntry_at value _ hl]

/-- **One insertion**, of a new key or of one that is there. -/
theorem Shows.insertStates {content : SortedMap Bytes Bytes} (h : s.Shows content)
    (key value : Bytes) (height : Height) :
    ∃ states, s.insertStates key value height = .ok states ∧
      (∀ s' ∈ states, s'.Shows content ∨ s'.Shows (content.insert key value)) ∧
      (states.getLastD s).Shows (content.insert key value) := by
  obtain ⟨t, hspells, hcontent⟩ := h
  rcases Spells.mem_or_forall_ne t key with ⟨x, hx, rfl⟩ | hnew
  · obtain ⟨s', hstates, hs'⟩ := insertStates_old hspells hcontent hx value height
    refine ⟨[s'], hstates, fun s'' hs'' => ?_, hs'⟩
    obtain rfl := List.mem_singleton.mp hs''
    exact .inr hs'
  · exact insertStates_new hspells hcontent hnew value height

/-- The state it ends in. -/
theorem Shows.insert {content : SortedMap Bytes Bytes} (h : s.Shows content) (key value : Bytes)
    (height : Height) :
    ∃ s', s.insert key value height = .ok s' ∧ s'.Shows (content.insert key value) := by
  obtain ⟨states, hstates, -, hlast⟩ := h.insertStates key value height
  exact ⟨states.getLastD s, by rw [SkipList.insert, hstates]; rfl, hlast⟩

end Insert

-- ---------------------------------------------------------------------------
-- Sequences of insertions
-- ---------------------------------------------------------------------------

/-- What `Insert` is given, and the height that it draws. -/
structure Insertion where
  key : Bytes
  value : Bytes
  height : Height

/-- The insertions in order. -/
def insertAll (s : SkipList) (ops : List Insertion) : Except Fault SkipList :=
  ops.foldlM (fun s op => s.insert op.key op.value op.height) s

/-- The entry of it. -/
def Insertion.entry (op : Insertion) : Bytes × Bytes := (op.key, op.value)

/-- The map that the same insertions make. -/
def mapOf (ops : List Insertion) : SortedMap Bytes Bytes :=
  ops.foldl (fun m op => m.insert op.key op.value) SortedMap.empty

/-- It holds the last value of every key. -/
theorem get?_mapOf (ops : List Insertion) (key : Bytes) :
    (mapOf ops).get? key = History.last key (ops.map Insertion.entry) := by
  induction ops using List.reverseRecOn with
  | nil => rfl
  | append_singleton ops op ih =>
    rw [mapOf, List.foldl_append, List.map_append, List.map_singleton,
      History.last_append_singleton, ← ih]
    refine (SortedMap.get?_insert (mapOf ops) op.key op.value key).trans ?_
    by_cases hk : key = op.key
    · exact (if_pos hk).trans (if_pos hk).symm
    · exact (if_neg hk).trans (if_neg hk).symm

/-- Its keys are those inserted. -/
theorem mem_keys_mapOf {ops : List Insertion} {key : Bytes} :
    key ∈ (mapOf ops).keys ↔ key ∈ ops.map Insertion.key := by
  rw [SortedMap.mem_keys_iff]
  constructor
  · rintro ⟨v, hv⟩
    rw [get?_mapOf] at hv
    obtain ⟨op, hop, hentry⟩ := List.mem_map.mp (History.last_mem hv)
    exact List.mem_map.mpr ⟨op, hop, congrArg Prod.fst hentry⟩
  · intro hk
    obtain ⟨op, hop, rfl⟩ := List.mem_map.mp hk
    obtain ⟨w, hw⟩ := History.last_isSome (List.mem_map_of_mem (f := Insertion.entry) hop)
    exact ⟨w, by rw [get?_mapOf, hw]⟩

/-- The pointers of the head are null. -/
theorem spells_new : Spells new ⟨fun _ => [], fun _ => List.Sublist.refl _, List.Pairwise.nil⟩ := by
  refine ⟨by decide, by decide, fun x hx => absurd hx List.not_mem_nil, ?_, fun i _ => rfl⟩
  intro i hi l x r hsplit
  obtain ⟨rfl, hr⟩ : l = [] ∧ [headLink] = x :: r := by
    cases l with
    | nil => exact ⟨rfl, hsplit⟩
    | cons y l => exact absurd (List.cons_eq_cons.mp hsplit).2 (by simp)
  obtain ⟨rfl, rfl⟩ := List.cons_eq_cons.mp hr
  exact next_of_node (i := i) rfl (List.getElem?_replicate_of_lt hi)

/-- A new list shows nothing. -/
theorem shows_new : new.Shows SortedMap.empty := ⟨_, spells_new, rfl⟩

/-- More insertions begin where the others end. -/
theorem insertAll_append (s : SkipList) (ops ops' : List Insertion) :
    s.insertAll (ops ++ ops') = s.insertAll ops >>= fun s' => s'.insertAll ops' :=
  List.foldlM_append

/-- **Every sequence of insertions** makes the map: none of them faults, and what the list
shows at the end is the map that they make, each key with its last value. -/
theorem shows_insertAll (ops : List Insertion) :
    ∃ s, new.insertAll ops = .ok s ∧ s.Shows (mapOf ops) := by
  induction ops using List.reverseRecOn with
  | nil => exact ⟨new, rfl, shows_new⟩
  | append_singleton ops op ih =>
    obtain ⟨s, hs, hshows⟩ := ih
    obtain ⟨s', hs', hshows'⟩ := hshows.insert op.key op.value op.height
    refine ⟨s', ?_, ?_⟩
    · rw [insertAll_append, hs, Except.ok_bind, insertAll, List.foldlM_cons, hs', Except.ok_bind]
      rfl
    · rw [mapOf, List.foldl_append]
      exact hshows'

end Zenith.SkipList
