import Zenith.Storage.ArenaSpace
import Zenith.Storage.SkipMemTable

/-!
# Zenith — the memtable in its arena

The memtable as it lies in memory: a node holds views of strings that `NewNode` and `Insert`
copied into the arena, and whoever reads the table reads the memory behind them. Every
allocation may throw, also in the middle of an insertion; what was allocated before it
stays, and the table goes on being used. So may the copies of the key that `update_range`
makes when the insertion has taken effect: the entry stays, and the range does not know of
it. That is why an attempt has three ways to end (`Ended`).

Nodes are named by their index, as in the skip list, and `place` is where one lies. A search
compares the bytes behind the views, so it is that of the skip list that the views spell
(`decode`). The results about skip lists are used for `decode`, and what is proved here is
that the strings stay where they are while the pointers change.

Memory that was handed out once is never written again (`Keeps`), so a view shows the same
bytes for as long as the table lives. That rests on the arena: a string is copied to a
region that is apart from all others. A value that is overwritten stays in memory too, and a
reader with a view of it can go on.

An attempt carries what its allocations return, an allocator for the requests to the arena
and two truth values for the strings of the range. So a statement about all attempts covers
every way in which memory can run out and come back.

Main results:

* `arenaTable_exact` — reads and scans are those of the writes whose insertion took effect,
  the range covers those that returned, and `approximate_size` is between the bytes of the
  entries and one and a half times what the writes may take;
* `views_last` — no later write changes what a view shows.
-/

namespace Zenith

open SkipList (Height)
open SkipMemTable (Write)

/-- The bytes at all addresses. -/
abbrev Memory := Nat → UInt8

/-- `std::memcpy` -/
def memcpy (mem : Memory) (dest : Nat) (src : Bytes) : Memory := fun a =>
  if dest ≤ a then src[a - dest]?.getD (mem a) else mem a

/-- A `std::string_view`. -/
structure StringView where
  data : Nat
  size : Nat
  deriving DecidableEq

/-- The addresses that a view looks at. -/
def StringView.region (v : StringView) : Region := ⟨v.data, v.size⟩

/-- The bytes that a view shows. -/
def StringView.read (v : StringView) (mem : Memory) : Bytes :=
  (List.range v.size).map fun i => mem (v.data + i)

/-- The arena with the memory behind it. -/
structure Pool where
  arena : Arena
  mem : Memory

/-- Copies a string into the arena; an empty one has no memory. The view, unless the
allocation throws. -/
def Pool.copyIn (p : Pool) (alloc : Arena.Allocator) (bytes : Bytes) : Option StringView × Pool :=
  if bytes = [] then (some ⟨0, 0⟩, p)
  else
    match p.arena.handle alloc (.allocate bytes.length) with
    | some (data, arena) => (some ⟨data, bytes.length⟩, ⟨arena, memcpy p.mem data bytes⟩)
    | none => (none, p)

/-- A node: where it lies, the views of key and value, and the pointers. A pointer without a
value is one that `NewNode` has not set. -/
structure ArenaList.Node where
  place : Nat
  key : StringView
  value : StringView
  next : List (Option (Option Addr))
  deriving DecidableEq

/-- The skip list, with its arena. -/
structure ArenaList where
  pool : Pool
  nodes : List ArenaList.Node
  maxHeight : Nat

namespace ArenaList

/-- Two views and a pointer for each level. -/
def sizeofNode (height : Nat) : Nat := 40 + 8 * (height - 1)

/-- The skip list as its views show it. -/
def decode (s : ArenaList) : SkipList :=
  ⟨s.nodes.map fun n => ⟨n.key.read s.pool.mem, n.value.read s.pool.mem, n.next⟩, s.maxHeight⟩

/-- `NewNode`: whether it has returned. The pointers of the node have no values yet. -/
def newNode (s : ArenaList) (alloc : Arena.Allocator) (key value : Bytes) (height : Nat) :
    Bool × ArenaList :=
  match s.pool.copyIn alloc key with
  | (none, pool) => (false, { s with pool })
  | (some k, pool) =>
    match pool.copyIn alloc value with
    | (none, pool) => (false, { s with pool })
    | (some v, pool) =>
      match pool.arena.handle alloc (.allocateAligned (sizeofNode height)) with
      | none => (false, { s with pool })
      | some (place, arena) =>
        (true, { s with
          pool := { pool with arena }
          nodes := s.nodes ++ [⟨place, k, v, List.replicate height none⟩] })

/-- The constructor: the head, with null pointers at every level. -/
def new (alloc : Arena.Allocator) : Option ArenaList :=
  match (⟨⟨Arena.new, fun _ => 0⟩, [], 1⟩ : ArenaList).newNode alloc [] []
      SkipList.kMaxHeight with
  | (true, s) => some { s with
      nodes := s.nodes.map fun n =>
        { n with next := List.replicate SkipList.kMaxHeight (some none) } }
  | (false, _) => none

/-- The node behind a pointer. -/
def nodeAt (s : ArenaList) (x : Addr) : Except Fault Node :=
  match s.nodes[x]? with
  | some n => .ok n
  | none => .error .outOfBounds

/-- `Node::SetNext` -/
def setNext (s : ArenaList) (x : Addr) (i : Nat) (y : Option Addr) : Except Fault ArenaList := do
  let n ← s.nodeAt x
  if i < n.next.length then
    .ok { s with nodes := s.nodes.set x { n with next := n.next.set i (some y) } }
  else .error .outOfBounds

/-- The loop over the levels, with `n` levels to go from level `i` on. -/
def link (x : Addr) (prev : List (Option Addr)) : Nat → Nat → ArenaList → Except Fault ArenaList
  | 0, _, s => .ok s
  | n + 1, i, s => do
    let p ← SkipList.prevAt prev i
    let s ← s.setNext x i (← s.decode.next p i)
    let s ← s.setNext p i (some x)
    link x prev n (i + 1) s

/-- `Insert`: whether it has returned. -/
def insert (s : ArenaList) (alloc : Arena.Allocator) (key value : Bytes) (height : Height) :
    Except Fault (Bool × ArenaList) := do
  let (x, prev) ← s.decode.findGreaterOrEqual key
  match ← s.decode.holding key x with
  | some x =>
    match s.pool.copyIn alloc value with
    | (none, pool) => return (false, { s with pool })
    | (some v, pool) =>
      let n ← s.nodeAt x
      return (true, { s with pool, nodes := s.nodes.set x { n with value := v } })
  | none =>
    let raised := { s with maxHeight := max s.maxHeight height }
    match raised.newNode alloc key value height with
    | (false, s') => return (false, s')
    | (true, s') =>
      return (true, ← link s.nodes.length (SkipList.fillHead prev s.maxHeight height) height 0 s')

end ArenaList

-- ---------------------------------------------------------------------------
-- The table
-- ---------------------------------------------------------------------------

/-- `MemTable`: the list and the range of its keys. -/
structure ArenaTable where
  table : ArenaList
  hasRange : Bool
  minKey : Bytes
  maxKey : Bytes

namespace ArenaTable

/-- The constructor, unless an allocation throws. -/
def new (alloc : Arena.Allocator) : Option ArenaTable := do
  return ⟨← ArenaList.new alloc, false, [], []⟩

/-- The last statement of `update_range`, and whether it has returned; `granted` tells
whether the copy of the key gets its memory. -/
def updateMax (mt : ArenaTable) (granted : Bool) (key : Bytes) : Bool × ArenaTable :=
  if key > mt.maxKey then
    if granted then (true, { mt with maxKey := key }) else (false, mt)
  else (true, mt)

/-- `update_range`: whether it has returned. A first range is there only when both copies
of the key have been made. -/
def updateRange (mt : ArenaTable) (copies : Bool × Bool) (key : Bytes) : Bool × ArenaTable :=
  if mt.hasRange = false then
    match copies with
    | (true, true) => (true, { mt with minKey := key, maxKey := key, hasRange := true })
    | (true, false) => (false, { mt with minKey := key })
    | (false, _) => (false, mt)
  else if key < mt.minKey then
    if copies.1 then { mt with minKey := key }.updateMax copies.2 key else (false, mt)
  else mt.updateMax copies.2 key

/-- The height that is drawn when the write adds a node. -/
def heightOf : Write → Height
  | .put _ _ height => height
  | .remove _ height => height

/-- A write, with what its allocations in the arena return, and whether the two copies
of its key get their memory. -/
structure Attempt where
  write : Write
  alloc : Arena.Allocator
  copies : Bool × Bool

/-- How an attempt ends: an allocation of the insertion throws, or one of `update_range`
does when the insertion has taken effect, or nothing does. -/
inductive Ended
  | failed
  | inserted
  | returned
  deriving DecidableEq

/-- `put` and `remove`. -/
def apply (mt : ArenaTable) (a : Attempt) : Except Fault (Ended × ArenaTable) := do
  let (done, table) ← mt.table.insert a.alloc a.write.entry.1 a.write.entry.2 (heightOf a.write)
  if done then
    let (returned, mt) := { mt with table }.updateRange a.copies a.write.entry.1
    return (if returned then .returned else .inserted, mt)
  return (.failed, { mt with table })

/-- The attempts in order: the table, and for each attempt its entry and how it ended. -/
def applyAll (mt : ArenaTable) :
    List Attempt → Except Fault (ArenaTable × List ((Bytes × Bytes) × Ended))
  | [] => .ok (mt, [])
  | a :: attempts => do
    let (ended, mt) ← mt.apply a
    let (mt, outcomes) ← mt.applyAll attempts
    return (mt, (a.write.entry, ended) :: outcomes)

/-- The entries whose insertion took effect. -/
def effects (outcomes : List ((Bytes × Bytes) × Ended)) : List (Bytes × Bytes) :=
  (outcomes.filter fun o => o.2 ≠ .failed).map Prod.fst

/-- The memtable as its views show it, which is what its readers work on. -/
def decode (mt : ArenaTable) : SkipMemTable :=
  ⟨mt.table.decode, mt.hasRange, mt.minKey, mt.maxKey⟩

/-- `approximate_size`. -/
def approximateSize (mt : ArenaTable) : Nat := mt.table.pool.arena.memoryUsage

end ArenaTable

-- ---------------------------------------------------------------------------
-- Memory that was handed out
-- ---------------------------------------------------------------------------

/-- What was copied is there. -/
theorem memcpy_self (mem : Memory) (dest : Nat) (src : Bytes) :
    (⟨dest, src.length⟩ : StringView).read (memcpy mem dest src) = src := by
  refine List.ext_getElem (by simp [StringView.read]) fun i hi hsrc => ?_
  simp [StringView.read, memcpy, List.getElem?_eq_getElem hsrc]

/-- Bytes outside the destination are kept. -/
theorem memcpy_of_apart (mem : Memory) {dest a : Nat} {src : Bytes}
    (h : a < dest ∨ dest + src.length ≤ a) : memcpy mem dest src a = mem a := by
  unfold memcpy
  rcases h with hlt | hle
  · rw [if_neg hlt.not_ge]
  · rw [if_pos (by omega), List.getElem?_eq_none (by omega)]
    rfl

/-- The regions handed out hold the bytes that they held. -/
def Keeps (grants : List Arena.Grant) (mem mem' : Memory) : Prop :=
  ∀ g ∈ grants, ∀ a, g.region.addr ≤ a → a < g.region.stop → mem' a = mem a

/-- Nothing is written. -/
theorem Keeps.refl (grants : List Arena.Grant) (mem : Memory) : Keeps grants mem mem :=
  fun _ _ _ _ _ => rfl

/-- One change after another, the second of which may have more regions to keep. -/
theorem Keeps.trans {grants more : List Arena.Grant} {mem mem' mem'' : Memory}
    (h : Keeps grants mem mem') (h' : Keeps (grants ++ more) mem' mem'') :
    Keeps grants mem mem'' := fun g hg a hlo hhi =>
  (h' g (List.mem_append_left more hg) a hlo hhi).trans (h g hg a hlo hhi)

/-- A view of nothing, or of a region handed out. -/
def StringView.Held (grants : List Arena.Grant) (v : StringView) : Prop :=
  v.size = 0 ∨ ∃ g ∈ grants, g.region = v.region

/-- More grants. -/
theorem StringView.Held.mono {grants : List Arena.Grant} {v : StringView} (h : v.Held grants)
    (more : List Arena.Grant) : v.Held (grants ++ more) :=
  h.imp id fun ⟨g, hg, hregion⟩ => ⟨g, List.mem_append_left more hg, hregion⟩

/-- A held view shows the same bytes. -/
theorem StringView.Held.read {grants : List Arena.Grant} {v : StringView} (h : v.Held grants)
    {mem mem' : Memory} (hkeeps : Keeps grants mem mem') : v.read mem' = v.read mem := by
  refine List.map_congr_left fun i hi => ?_
  have hi := List.mem_range.mp hi
  rcases h with hzero | ⟨g, hg, hregion⟩
  · omega
  · refine hkeeps g hg _ ?_ ?_ <;> rw [hregion]
    · exact Nat.le_add_right _ _
    · exact Nat.add_lt_add_left hi v.data

/-- The arena of a pool after these grants. -/
structure Pool.Stocked (p : Pool) (grants : List Arena.Grant) : Prop where
  laid : p.arena.Laid grants
  account : p.arena.Account grants

/-- One pool after another: some grants more, of at most `cost` bytes, and no region
handed out before has changed. -/
structure Pool.Extends (p p' : Pool) (grants more : List Arena.Grant) (cost : Nat) : Prop where
  stocked : p'.Stocked (grants ++ more)
  keeps : Keeps grants p.mem p'.mem
  cost : Arena.costs more ≤ cost

namespace Pool

variable {p p' : Pool} {grants more : List Arena.Grant} {alloc : Arena.Allocator} {cost : Nat}

/-- A pool extends itself. -/
theorem Stocked.extends (h : p.Stocked grants) (cost : Nat) : p.Extends p grants [] cost :=
  ⟨(List.append_nil grants).symm ▸ h, Keeps.refl _ _, Nat.zero_le _⟩

/-- One extension after another. Costs add up. -/
theorem Extends.trans {p'' : Pool} {more' : List Arena.Grant} {cost' : Nat}
    (h : p.Extends p' grants more cost) (h' : p'.Extends p'' (grants ++ more) more' cost') :
    p.Extends p'' grants (more ++ more') (cost + cost') := by
  refine ⟨(List.append_assoc grants more more') ▸ h'.stocked, h.keeps.trans h'.keeps, ?_⟩
  rw [Arena.costs, List.map_append, List.sum_append]
  exact Nat.add_le_add h.cost h'.cost

/-- A request that returned. -/
theorem Stocked.handle (h : p.Stocked grants) (halloc : Arena.Allocates alloc)
    {req : Arena.Request} (hpos : 0 < req.bytes) (hsize : req.bytes < 2 ^ 63) {addr : Nat}
    {arena : Arena} (hserve : p.arena.handle alloc req = some (addr, arena)) :
    (⟨arena, p.mem⟩ : Pool).Stocked (grants ++ [⟨req, addr⟩]) :=
  ⟨h.laid.handle halloc hpos hsize hserve, h.account.handle hpos hsize hserve⟩

/-- **Copying a string** into the arena. -/
theorem Stocked.copyIn (h : p.Stocked grants) (halloc : Arena.Allocates alloc) {bytes : Bytes}
    (hsize : bytes.length < 2 ^ 63) :
    ∃ more, p.Extends (p.copyIn alloc bytes).2 grants more bytes.length ∧
      ∀ v, (p.copyIn alloc bytes).1 = some v →
        v.Held (grants ++ more) ∧ v.read (p.copyIn alloc bytes).2.mem = bytes ∧
        Arena.granted more = bytes.length := by
  unfold Pool.copyIn
  -- an empty string has no memory, any other is copied to a new region
  by_cases hnil : bytes = []
  · rw [if_pos hnil]
    subst hnil
    refine ⟨[], h.extends _, fun v hv => ?_⟩
    obtain rfl := Option.some.inj hv
    exact ⟨.inl rfl, rfl, rfl⟩
  rw [if_neg hnil]
  have hpos : 0 < (Arena.Request.allocate bytes.length).bytes := List.length_pos_iff.mpr hnil
  cases hserve : p.arena.handle alloc (.allocate bytes.length) with
  | none => exact ⟨[], h.extends _, fun v hv => absurd hv (by simp)⟩
  | some served =>
    obtain ⟨data, arena⟩ := served
    have hstocked := h.handle halloc hpos hsize hserve
    refine ⟨[⟨.allocate bytes.length, data⟩], ⟨⟨hstocked.laid, hstocked.account⟩, ?_, ?_⟩,
      fun v hv => ?_⟩
    · -- the new region is apart from all regions handed out before
      intro g hg a hlo hhi
      have hapart := hstocked.laid.apart
      rw [List.map_append, List.pairwise_append] at hapart
      have := hapart.2.2 _ (List.mem_map_of_mem hg) _ (List.mem_singleton.mpr rfl)
      simp only [Region.Apart, Region.stop, Arena.Grant.region, Arena.Request.bytes] at this hlo hhi
      exact memcpy_of_apart p.mem (by omega)
    · simp [Arena.costs, Arena.Request.cost, Arena.Request.bytes, Arena.Request.slack]
    · obtain rfl := Option.some.inj hv
      refine ⟨.inr ⟨_, List.mem_append_right grants (List.mem_singleton.mpr rfl), rfl⟩,
        memcpy_self _ _ _, ?_⟩
      simp [Arena.granted, Arena.Request.bytes]

end Pool

-- ---------------------------------------------------------------------------
-- The list that the views spell
-- ---------------------------------------------------------------------------

namespace ArenaList

variable {s s' : ArenaList} {grants more : List Arena.Grant} {alloc : Arena.Allocator}

/-- The strings of all nodes are held. -/
def Strung (s : ArenaList) (grants : List Arena.Grant) : Prop :=
  ∀ n ∈ s.nodes, n.key.Held grants ∧ n.value.Held grants

/-- More grants. -/
theorem Strung.mono (h : s.Strung grants) (more : List Arena.Grant) : s.Strung (grants ++ more) :=
  fun n hn => ⟨(h n hn).1.mono more, (h n hn).2.mono more⟩

/-- Nothing that is held changes when the pool moves on. -/
theorem Strung.decode (h : s.Strung grants) {pool : Pool}
    (hkeeps : Keeps grants s.pool.mem pool.mem) : { s with pool }.decode = s.decode := by
  refine congrArg (fun nodes => (⟨nodes, s.maxHeight⟩ : SkipList)) ?_
  refine List.map_congr_left fun n hn => ?_
  rw [(h n hn).1.read hkeeps, (h n hn).2.read hkeeps]

/-- The same memory and strings, with other pointers. -/
structure Relinked (s s' : ArenaList) : Prop where
  pool : s'.pool = s.pool
  strings : ∀ n ∈ s'.nodes, ∃ m ∈ s.nodes, n.key = m.key ∧ n.value = m.value

/-- One change after another. -/
theorem Relinked.trans {s'' : ArenaList} (h : Relinked s s') (h' : Relinked s' s'') :
    Relinked s s'' := by
  refine ⟨h'.pool.trans h.pool, fun n hn => ?_⟩
  obtain ⟨m, hm, hkey, hvalue⟩ := h'.strings n hn
  obtain ⟨m', hm', hkey', hvalue'⟩ := h.strings m hm
  exact ⟨m', hm', hkey.trans hkey', hvalue.trans hvalue'⟩

/-- The strings are held as before. -/
theorem Relinked.strung (h : Relinked s s') (hs : s.Strung grants) : s'.Strung grants := by
  intro n hn
  obtain ⟨m, hm, hkey, hvalue⟩ := h.strings n hn
  exact ⟨hkey ▸ (hs m hm).1, hvalue ▸ (hs m hm).2⟩

/-- A node as its views show it. -/
theorem decode_nodes (s : ArenaList) (x : Addr) :
    s.decode.nodes[x]? = s.nodes[x]?.map fun n =>
      ⟨n.key.read s.pool.mem, n.value.read s.pool.mem, n.next⟩ := List.getElem?_map

/-- A node that is replaced. -/
theorem decode_set (s : ArenaList) (x : Addr) (n : Node) :
    { s with nodes := s.nodes.set x n }.decode =
      ⟨s.decode.nodes.set x ⟨n.key.read s.pool.mem, n.value.read s.pool.mem, n.next⟩,
        s.maxHeight⟩ :=
  congrArg (fun nodes => (⟨nodes, s.maxHeight⟩ : SkipList)) List.map_set

/-- **A pointer set** is one set in the list that the views spell. -/
theorem setNext_decode {x : Addr} {i : Nat} {y : Option Addr} {d : SkipList}
    (h : s.decode.setNext x i y = .ok d) :
    ∃ s', s.setNext x i y = .ok s' ∧ s'.decode = d ∧ Relinked s s' := by
  obtain ⟨m, hm, hset⟩ := Except.bind_eq_ok_iff.mp h
  rw [SkipList.nodeAt_eq_ok_iff, decode_nodes, Option.map_eq_some_iff] at hm
  obtain ⟨n, hn, rfl⟩ := hm
  split at hset
  · next hi =>
    obtain rfl := Except.ok.inj hset
    refine ⟨{ s with nodes := s.nodes.set x { n with next := n.next.set i (some y) } }, ?_,
      decode_set s x _, rfl, fun m hm => ?_⟩
    · rw [setNext, nodeAt, hn]
      exact if_pos hi
    · rcases List.mem_or_eq_of_mem_set hm with hm | rfl
      · exact ⟨m, hm, rfl, rfl⟩
      · exact ⟨n, List.mem_of_getElem? hn, rfl, rfl⟩
  · exact absurd hset (by simp)

/-- **Linking a node in**, by induction on the levels to go. -/
theorem link_decode {x : Addr} {prev : List (Option Addr)} {n i : Nat} {states : List SkipList}
    (h : SkipList.link x prev n i s.decode = .ok states) :
    ∃ s', link x prev n i s = .ok s' ∧ s'.decode = states.getLastD s.decode ∧
      Relinked s s' := by
  induction n generalizing i s states with
  | zero =>
    obtain rfl := Except.ok.inj h
    exact ⟨s, rfl, rfl, rfl, fun m hm => ⟨m, hm, rfl, rfl⟩⟩
  | succ n ih =>
    obtain ⟨⟨d₁, d₂⟩, hlevel, h⟩ := Except.bind_eq_ok_iff.mp h
    obtain ⟨rest, hrest, hstates⟩ := Except.bind_eq_ok_iff.mp h
    obtain rfl := Except.ok.inj hstates
    -- the two stores of this level
    obtain ⟨p, hp, hlevel⟩ := Except.bind_eq_ok_iff.mp hlevel
    obtain ⟨y, hy, hlevel⟩ := Except.bind_eq_ok_iff.mp hlevel
    obtain ⟨e₁, h₁, hlevel⟩ := Except.bind_eq_ok_iff.mp hlevel
    obtain ⟨e₂, h₂, hlevel⟩ := Except.bind_eq_ok_iff.mp hlevel
    obtain ⟨rfl, rfl⟩ := Prod.mk.inj (Except.ok.inj hlevel)
    obtain ⟨s₁, hs₁, rfl, hrel₁⟩ := setNext_decode h₁
    obtain ⟨s₂, hs₂, rfl, hrel₂⟩ := setNext_decode h₂
    obtain ⟨s', hs', hdecode, hrel⟩ := ih hrest
    refine ⟨s', ?_, ?_, (hrel₁.trans hrel₂).trans hrel⟩
    · simp only [link, hp, Except.ok_bind, hy, hs₁, hs₂, hs']
    · rw [hdecode, List.getLastD_cons, List.getLastD_cons]

-- ---------------------------------------------------------------------------
-- Insertions
-- ---------------------------------------------------------------------------

/-- What an insertion may take: the strings, the node and the slop in front of it. -/
def insertCost (key value : Bytes) (height : Nat) : Nat :=
  key.length + value.length + (sizeofNode height + 7)

/-- **A new node**, or an allocation that throws: then the nodes are as they were. -/
theorem newNode_spec (hstocked : s.pool.Stocked grants) (hstrung : s.Strung grants)
    (halloc : Arena.Allocates alloc) {key value : Bytes} {height : Nat}
    (hkey : key.length < 2 ^ 63) (hvalue : value.length < 2 ^ 63) (hheight : height < 2 ^ 32) :
    ∃ done s' more, s.newNode alloc key value height = (done, s') ∧
      s.pool.Extends s'.pool grants more (insertCost key value height) ∧
      s'.Strung (grants ++ more) ∧
      (done = false → s'.decode = s.decode) ∧
      (done = true → s'.decode = s.decode.newNode key value height ∧
        key.length + value.length ≤ Arena.granted more) := by
  obtain ⟨more₁, hext₁, hview₁⟩ := hstocked.copyIn halloc hkey
  unfold newNode insertCost
  generalize s.pool.copyIn alloc key = copied₁ at hext₁ hview₁
  obtain ⟨k, pool₁⟩ := copied₁
  -- the key is copied first, then the value, and then the node gets its place
  cases k with
  | none =>
    refine ⟨false, { s with pool := pool₁ }, more₁, rfl, ⟨hext₁.stocked, hext₁.keeps, ?_⟩,
      hstrung.mono more₁, fun _ => hstrung.decode hext₁.keeps, fun h => absurd h (by simp)⟩
    exact hext₁.cost.trans (by omega)
  | some k =>
  obtain ⟨hheld₁, hread₁, hgranted₁⟩ := hview₁ k rfl
  obtain ⟨more₂, hext₂, hview₂⟩ := hext₁.stocked.copyIn halloc hvalue
  dsimp only at hext₁ hread₁ hext₂ hview₂ ⊢
  generalize pool₁.copyIn alloc value = copied₂ at hext₂ hview₂
  obtain ⟨v, pool₂⟩ := copied₂
  have hext := hext₁.trans hext₂
  cases v with
  | none =>
    refine ⟨false, { s with pool := pool₂ }, more₁ ++ more₂, rfl,
      ⟨hext.stocked, hext.keeps, hext.cost.trans (by omega)⟩, hstrung.mono _,
      fun _ => hstrung.decode hext.keeps, fun h => absurd h (by simp)⟩
  | some v =>
  obtain ⟨hheld₂, hread₂, hgranted₂⟩ := hview₂ v rfl
  dsimp only at hext₂ hext hread₂ ⊢
  cases hserve : pool₂.arena.handle alloc (.allocateAligned (sizeofNode height)) with
  | none =>
    refine ⟨false, { s with pool := pool₂ }, more₁ ++ more₂, rfl,
      ⟨hext.stocked, hext.keeps, hext.cost.trans (by omega)⟩, hstrung.mono _,
      fun _ => hstrung.decode hext.keeps, fun h => absurd h (by simp)⟩
  | some served =>
    obtain ⟨place, arena⟩ := served
    have hsize : 0 < (Arena.Request.allocateAligned (sizeofNode height)).bytes ∧
        (Arena.Request.allocateAligned (sizeofNode height)).bytes < 2 ^ 63 := by
      simp only [Arena.Request.bytes, sizeofNode]
      omega
    have hstocked₃ := hext.stocked.handle halloc hsize.1 hsize.2 hserve
    set g : Arena.Grant := ⟨.allocateAligned (sizeofNode height), place⟩ with hg
    have hext₃ : pool₂.Extends ⟨arena, pool₂.mem⟩ (grants ++ (more₁ ++ more₂)) [g]
        (sizeofNode height + 7) := by
      refine ⟨hstocked₃, Keeps.refl _ _, ?_⟩
      simp [hg, Arena.costs, Arena.Request.cost, Arena.Request.bytes, Arena.Request.slack,
        Arena.align]
    have hall := hext.trans hext₃
    -- the key was copied first, and its region is not written again
    have hk : k.read pool₂.mem = key := (hheld₁.read hext₂.keeps).trans hread₁
    have hk' : k.Held (grants ++ (more₁ ++ more₂ ++ [g])) := by
      rw [← List.append_assoc, ← List.append_assoc]
      exact (hheld₁.mono more₂).mono [g]
    have hv' : v.Held (grants ++ (more₁ ++ more₂ ++ [g])) := by
      rw [← List.append_assoc, ← List.append_assoc]
      exact hheld₂.mono [g]
    refine ⟨true, _, more₁ ++ more₂ ++ [g], rfl, hall, fun n hn => ?_,
      fun h => absurd h (by simp), fun _ => ⟨?_, ?_⟩⟩
    · rcases List.mem_append.mp hn with hn | hn
      · exact (hstrung.mono _) n hn
      · obtain rfl := List.mem_singleton.mp hn
        exact ⟨hk', hv'⟩
    -- the old nodes show what they did, and the new one what was copied
    · have hkeeps : Keeps grants s.pool.mem (⟨arena, pool₂.mem⟩ : Pool).mem := hext.keeps
      have hold := hstrung.decode hkeeps
      simp only [ArenaList.decode, SkipList.newNode, SkipList.mk.injEq, and_true] at hold ⊢
      rw [List.map_append, hold, List.map_singleton, hk, hread₂]
    · simp only [Arena.granted, List.map_append, List.sum_append] at hgranted₁ hgranted₂ ⊢
      omega

/-- The bytes of some entries. -/
def entryBytes (es : List (Bytes × Bytes)) : Nat :=
  (es.map fun e => e.1.length + e.2.length).sum

/-- One entry more. -/
theorem entryBytes_cons (e : Bytes × Bytes) (es : List (Bytes × Bytes)) :
    entryBytes (e :: es) = e.1.length + e.2.length + entryBytes es := List.sum_cons

/-- An insertion adds an entry, ... -/
theorem entryBytes_insertEntry_le (k v : Bytes) (es : List (Bytes × Bytes)) :
    entryBytes (SortedMap.insertEntry k v es) ≤ entryBytes es + (k.length + v.length) := by
  induction es with
  | nil => simp [SortedMap.insertEntry, entryBytes]
  | cons e es ih =>
    unfold SortedMap.insertEntry
    split_ifs with hlt heq <;> simp only [entryBytes_cons] at ih ⊢ <;> omega

/-- ... or a value when the key is there. -/
theorem entryBytes_insertEntry_of_mem {k : Bytes} (v : Bytes) {es : List (Bytes × Bytes)}
    (hsorted : es.Pairwise fun a b => a.1 < b.1) (hk : k ∈ es.map Prod.fst) :
    entryBytes (SortedMap.insertEntry k v es) ≤ entryBytes es + v.length := by
  -- by induction on the entries in front of the key
  induction es with
  | nil => exact absurd hk List.not_mem_nil
  | cons e es ih =>
    obtain ⟨hhead, htail⟩ := List.pairwise_cons.mp hsorted
    unfold SortedMap.insertEntry
    split_ifs with hlt heq
    · -- no key is below the first one
      rcases List.mem_cons.mp hk with rfl | hk
      · exact absurd hlt (lt_irrefl _)
      · obtain ⟨e', he', rfl⟩ := List.mem_map.mp hk
        exact absurd (hhead e' he') hlt.not_gt
    · subst heq
      simp only [entryBytes_cons]
      omega
    · have := ih htail ((List.mem_cons.mp hk).resolve_left heq)
      simp only [entryBytes_cons]
      omega

/-- More grants. -/
theorem granted_append (grants more : List Arena.Grant) :
    Arena.granted (grants ++ more) = Arena.granted grants + Arena.granted more := by
  rw [Arena.granted, List.map_append, List.sum_append]
  rfl

/-- A list whose strings are in its arena and spell a list that shows the content. -/
structure Backed (s : ArenaList) (grants : List Arena.Grant) (content : SortedMap Bytes Bytes) :
    Prop where
  stocked : s.pool.Stocked grants
  strung : s.Strung grants
  shows : s.decode.Shows content
  covered : entryBytes content.toList ≤ Arena.granted grants

/-- The content stays when the pool moves on without a change to the list. -/
theorem Backed.extend {content : SortedMap Bytes Bytes} (h : Backed s grants content)
    {pool : Pool} {cost : Nat} (hext : s.pool.Extends pool grants more cost) :
    Backed { s with pool } (grants ++ more) content := by
  refine ⟨hext.stocked, h.strung.mono more, ?_, ?_⟩
  · rw [h.strung.decode hext.keeps]
    exact h.shows
  · rw [granted_append]
    exact h.covered.trans (Nat.le_add_right _ _)

/-- **One insertion**: the key has its value, or an allocation threw and nothing has
changed for a reader. -/
theorem Backed.insert {content : SortedMap Bytes Bytes} (h : Backed s grants content)
    (halloc : Arena.Allocates alloc) {key value : Bytes} (hkey : key.length < 2 ^ 63)
    (hvalue : value.length < 2 ^ 63) (height : Height) :
    ∃ done s' more, s.insert alloc key value height = .ok (done, s') ∧
      s.pool.Extends s'.pool grants more (insertCost key value height) ∧
      Backed s' (grants ++ more) (if done then content.insert key value else content) := by
  obtain ⟨t, hspells, hcontent⟩ := h.shows
  obtain ⟨prev, hfind, -⟩ := hspells.findGreaterOrEqual_spec key
  unfold ArenaList.insert
  rw [hfind, Except.ok_bind]
  -- the key is there, and its value is replaced; or a node is linked in
  rcases SkipList.Spells.mem_or_forall_ne t key with ⟨x, hx, rfl⟩ | hnew
  · -- the key is there: a copy of the value, and its view
    obtain ⟨d, hstates, hshows⟩ := SkipList.insertStates_old hspells hcontent hx value height
    rw [SkipList.insertStates, hfind, Except.ok_bind] at hstates
    simp only [hspells.holding_of_mem hx, Except.ok_bind] at hstates ⊢
    obtain ⟨more, hext, hview⟩ := h.stocked.copyIn halloc hvalue
    generalize s.pool.copyIn alloc value = copied at hext hview
    obtain ⟨v, pool⟩ := copied
    -- a value alone takes less than what an insertion may take
    have hcost : value.length ≤ insertCost x.2 value height := by
      unfold insertCost
      omega
    cases v with
    | none =>
      exact ⟨false, { s with pool }, more, rfl,
        ⟨hext.stocked, hext.keeps, hext.cost.trans hcost⟩, h.extend hext⟩
    | some v =>
      obtain ⟨hheld, hread, hgranted⟩ := hview v rfl
      obtain ⟨d', hset, hd⟩ := Except.bind_eq_ok_iff.mp hstates
      obtain ⟨rfl, -⟩ := List.cons_eq_cons.mp (Except.ok.inj hd)
      obtain ⟨m, hm, rfl⟩ := Except.map_eq_ok_iff.mp hset
      rw [SkipList.nodeAt_eq_ok_iff, decode_nodes, Option.map_eq_some_iff] at hm
      obtain ⟨n, hn, rfl⟩ := hm
      have hmem := List.mem_of_getElem? hn
      have hdecode : ({ s with pool, nodes := s.nodes.set x.1 { n with value := v } } :
          ArenaList).decode =
            ⟨s.decode.nodes.set x.1 ⟨n.key.read s.pool.mem, value, n.next⟩, s.maxHeight⟩ := by
        refine (decode_set { s with pool } x.1 _).trans ?_
        rw [h.strung.decode hext.keeps, (h.strung n hmem).1.read hext.keeps, hread]
      refine ⟨true, _, more, by rw [nodeAt, hn]; rfl,
        ⟨hext.stocked, hext.keeps, hext.cost.trans hcost⟩, hext.stocked, fun m hm => ?_, ?_, ?_⟩
      · rcases List.mem_or_eq_of_mem_set hm with hm | rfl
        · exact h.strung.mono more m hm
        · exact ⟨(h.strung n hmem).1.mono more, hheld⟩
      · rw [hdecode]
        exact hshows
      · have hkeys : x.2 ∈ content.toList.map Prod.fst := by
          rw [← hcontent, SkipList.entries, List.map_map]
          exact List.mem_map.mpr ⟨x, hx, rfl⟩
        rw [granted_append, hgranted]
        exact (entryBytes_insertEntry_of_mem value content.sorted hkeys).trans
          (Nat.add_le_add_right h.covered _)
  · -- a new key: the height is raised, and a node is linked in
    obtain ⟨states, hstates, -, hlast⟩ :=
      SkipList.insertStates_new hspells hcontent hnew value height
    rw [SkipList.insertStates, hfind, Except.ok_bind] at hstates
    simp only [hspells.holding_of_forall_ne hnew, Except.ok_bind] at hstates ⊢
    obtain ⟨rest, hlink, hrest⟩ := Except.bind_eq_ok_iff.mp hstates
    obtain rfl := Except.ok.inj hrest
    rw [List.getLastD_cons, List.getLastD_cons] at hlast
    have hheight : height.val < 2 ^ 32 := height.property.2.trans_lt (by decide)
    obtain ⟨done, s₁, more, hnode, hext, hstrung, hfalse, htrue⟩ :=
      newNode_spec (s := { s with maxHeight := max s.maxHeight height }) h.stocked h.strung halloc
        hkey hvalue hheight
    rw [hnode]
    -- an allocation threw: only the height has changed, which no reader notices
    cases done with
    | false =>
      refine ⟨false, s₁, more, rfl, hext, hext.stocked, hstrung, ?_, ?_⟩
      · rw [hfalse rfl]
        exact ⟨t, hspells.raise height, hcontent⟩
      · rw [granted_append]
        exact h.covered.trans (Nat.le_add_right _ _)
    | true =>
      obtain ⟨hdecode, hgranted⟩ := htrue rfl
      have hlen : s.decode.nodes.length = s.nodes.length := List.length_map ..
      rw [hlen] at hlink
      obtain ⟨s₂, hs₂, hdecode₂, hrel⟩ := link_decode (s := s₁) (by rw [hdecode]; exact hlink)
      refine ⟨true, s₂, more, ?_, hrel.pool.symm ▸ hext, hrel.pool.symm ▸ hext.stocked,
        hrel.strung hstrung, ?_, ?_⟩
      · have hmax : s.decode.maxHeight = s.maxHeight := rfl
        rw [hmax] at hs₂
        dsimp only
        rw [hs₂]
        rfl
      · rw [hdecode₂, hdecode]
        exact hlast
      · rw [granted_append]
        exact (entryBytes_insertEntry_le key value content.toList).trans
          (Nat.add_le_add h.covered hgranted)

/-- **The constructor**: an empty list behind its head. -/
theorem backed_new (halloc : Arena.Allocates alloc) (h : new alloc = some s) :
    ∃ grants, Backed s grants SortedMap.empty ∧
      Arena.costs grants ≤ insertCost [] [] SkipList.kMaxHeight := by
  -- the head is a node with empty strings, of full height
  set empty : ArenaList := ⟨⟨Arena.new, fun _ => 0⟩, [], 1⟩
  have hstocked : empty.pool.Stocked [] := ⟨Arena.laid_new, Arena.account_new⟩
  have hnone : empty.Strung [] := fun n hn => absurd hn List.not_mem_nil
  have hempty : ([] : Bytes).length < 2 ^ 63 := by decide
  have hheight : SkipList.kMaxHeight < 2 ^ 32 := by decide
  obtain ⟨done, s₁, more, hnode, hext, hstrung, -, htrue⟩ :=
    newNode_spec hstocked hnone halloc hempty hempty hheight
  unfold new at h
  rw [hnode] at h
  cases done with
  | false => exact absurd h (by simp)
  | true =>
    obtain rfl := Option.some.inj h
    obtain ⟨hdecode, -⟩ := htrue rfl
    refine ⟨more, ⟨hext.stocked, fun n hn => ?_, ?_, Nat.zero_le _⟩, hext.cost⟩
    · obtain ⟨m, hm, rfl⟩ := List.mem_map.mp hn
      exact hstrung m hm
    -- all pointers of the head are null, in the pool as in the list
    · have hnull : ({ s₁ with nodes := s₁.nodes.map fun n =>
          { n with next := List.replicate SkipList.kMaxHeight (some none) } } : ArenaList).decode =
          ⟨s₁.decode.nodes.map fun n =>
            { n with next := List.replicate SkipList.kMaxHeight (some none) },
            s₁.decode.maxHeight⟩ := by
        simp only [decode, List.map_map]
        rfl
      rw [hnull, hdecode]
      exact SkipList.shows_new

end ArenaList

-- ---------------------------------------------------------------------------
-- The table after any writes
-- ---------------------------------------------------------------------------

namespace ArenaTable

/-- Whether the strings of a write have lengths that an allocation can have. -/
def Writable (w : Write) : Prop := w.entry.1.length < 2 ^ 63 ∧ w.entry.2.length < 2 ^ 63

/-- What a write may take. -/
def writeCost (w : Write) : Nat :=
  ArenaList.insertCost w.entry.1 w.entry.2 (heightOf w).val

/-- A table in its arena after these outcomes: it holds what took effect, and its range
covers what returned. -/
structure Holds (mt : ArenaTable) (grants : List Arena.Grant)
    (outcomes : List ((Bytes × Bytes) × Ended)) : Prop where
  backed : mt.table.Backed grants (MemTable.ofWrites (effects outcomes)).table
  covers : ∀ o ∈ outcomes, o.2 = .returned →
    mt.hasRange = true ∧ mt.minKey ≤ o.1.1 ∧ o.1.1 ≤ mt.maxKey

variable {mt mt' : ArenaTable} {grants : List Arena.Grant}
  {outcomes : List ((Bytes × Bytes) × Ended)} {alloc : Arena.Allocator}

/-- What `update_range` leaves, cut short or not: the table as it is, and a range that
covers what the old one did, and the key when it has returned. -/
structure Widened (mt mt' : ArenaTable) (key : Bytes) (returned : Bool) : Prop where
  table : mt'.table = mt.table
  old : ∀ k, (mt.hasRange = true ∧ mt.minKey ≤ k ∧ k ≤ mt.maxKey) →
    mt'.hasRange = true ∧ mt'.minKey ≤ k ∧ k ≤ mt'.maxKey
  key : returned = true → mt'.hasRange = true ∧ mt'.minKey ≤ key ∧ key ≤ mt'.maxKey

/-- The upper end is moved, or its copy throws and it stays. -/
theorem updateMax_widened (mt : ArenaTable) {key : Bytes} (hrange : mt.hasRange = true) (hmin : mt.minKey ≤ key)
    (granted : Bool) :
    Widened mt (mt.updateMax granted key).2 key (mt.updateMax granted key).1 := by
  unfold updateMax
  by_cases hgt : key > mt.maxKey
  · rw [if_pos hgt]
    cases granted with
    | true => exact ⟨rfl, fun k hk => ⟨hk.1, hk.2.1, hk.2.2.trans hgt.le⟩,
        fun _ => ⟨hrange, hmin, le_rfl⟩⟩
    | false => exact ⟨rfl, fun _ => id, fun h => absurd h Bool.false_ne_true⟩
  · rw [if_neg hgt]
    exact ⟨rfl, fun _ => id, fun _ => ⟨hrange, hmin, not_lt.mp hgt⟩⟩

theorem updateRange_widened (mt : ArenaTable) (copies : Bool × Bool) (key : Bytes) :
    Widened mt (mt.updateRange copies key).2 key (mt.updateRange copies key).1 := by
  unfold updateRange
  -- without a range both copies are made, else only what the key exceeds
  by_cases hnone : mt.hasRange = false
  · -- no range before: there is nothing that it covered
    have hold : ∀ k, ¬ (mt.hasRange = true ∧ mt.minKey ≤ k ∧ k ≤ mt.maxKey) := fun k hk =>
      absurd (hnone.symm.trans hk.1) Bool.false_ne_true
    rw [if_pos hnone]
    obtain ⟨first, second⟩ := copies
    cases first with
    | false => exact ⟨rfl, fun k hk => absurd hk (hold k), fun h => absurd h Bool.false_ne_true⟩
    | true =>
      cases second with
      | false => exact ⟨rfl, fun k hk => absurd hk (hold k), fun h => absurd h Bool.false_ne_true⟩
      | true => exact ⟨rfl, fun k hk => absurd hk (hold k), fun _ => ⟨rfl, le_rfl, le_rfl⟩⟩
  have hrange : mt.hasRange = true := Bool.not_eq_false _ ▸ hnone
  rw [if_neg hnone]
  by_cases hlt : key < mt.minKey
  · rw [if_pos hlt]
    cases copies.1 with
    | false => exact ⟨rfl, fun _ => id, fun h => absurd h Bool.false_ne_true⟩
    | true =>
      have h := updateMax_widened { mt with minKey := key } hrange le_rfl copies.2
      exact ⟨h.table, fun k hk => h.old k ⟨hk.1, hlt.le.trans hk.2.1, hk.2.2⟩, h.key⟩
  · rw [if_neg hlt]
    exact updateMax_widened mt hrange (not_lt.mp hlt) copies.2

/-- One outcome more. -/
theorem effects_append (outcomes : List ((Bytes × Bytes) × Ended)) (e : Bytes × Bytes)
    (ended : Ended) :
    effects (outcomes ++ [(e, ended)]) =
      if ended = .failed then effects outcomes else effects outcomes ++ [e] := by
  unfold effects
  rw [List.filter_append, List.map_append]
  cases ended <;> simp

/-- **One attempt**, which takes effect or not. -/
theorem Holds.apply (h : mt.Holds grants outcomes) {a : Attempt}
    (halloc : Arena.Allocates a.alloc) (hw : Writable a.write) :
    ∃ ended mt' more, mt.apply a = .ok (ended, mt') ∧
      mt.table.pool.Extends mt'.table.pool grants more (writeCost a.write) ∧
      mt'.Holds (grants ++ more) (outcomes ++ [(a.write.entry, ended)]) := by
  obtain ⟨done, table, more, hinsert, hext, hbacked⟩ :=
    h.backed.insert halloc hw.1 hw.2 (heightOf a.write)
  -- the insertion throws, or takes effect and then the range is updated
  cases done with
  | false =>
    refine ⟨.failed, { mt with table }, more, by rw [ArenaTable.apply, hinsert]; rfl, hext, ?_, ?_⟩
    · rw [effects_append, if_pos rfl]
      exact hbacked
    · intro o ho hreturned
      rcases List.mem_append.mp ho with ho | ho
      · exact h.covers o ho hreturned
      · obtain rfl := List.mem_singleton.mp ho
        exact absurd hreturned (by simp)
  | true =>
    -- the first copy or the second may throw, and the range is widened as far as it came
    have hwidened := updateRange_widened { mt with table } a.copies a.write.entry.1
    have happly : mt.apply a = .ok
        (if ({ mt with table }.updateRange a.copies a.write.entry.1).1 then .returned
          else .inserted, ({ mt with table }.updateRange a.copies a.write.entry.1).2) := by
      rw [ArenaTable.apply, hinsert]
      rfl
    generalize { mt with table }.updateRange a.copies a.write.entry.1 = updated
      at happly hwidened
    obtain ⟨returned, mt'⟩ := updated
    have htable : mt'.table = table := hwidened.table
    refine ⟨_, mt', more, happly, htable.symm ▸ hext, ?_, ?_⟩
    · have heffects : effects (outcomes ++
          [(a.write.entry, if returned then Ended.returned else .inserted)]) =
          effects outcomes ++ [a.write.entry] := by
        rw [effects_append]
        cases returned <;> rfl
      rw [htable, heffects, MemTable.ofWrites, List.foldl_append]
      exact hbacked
    · intro o ho hreturned
      rcases List.mem_append.mp ho with ho | ho
      · exact hwidened.old o.1.1 (h.covers o ho hreturned)
      · obtain rfl := List.mem_singleton.mp ho
        refine hwidened.key ?_
        cases returned with
        | true => rfl
        | false => exact absurd hreturned (by simp)

/-- **All attempts**, by induction on them. -/
theorem Holds.applyAll (h : mt.Holds grants outcomes) {attempts : List Attempt}
    (hws : ∀ a ∈ attempts, Arena.Allocates a.alloc ∧ Writable a.write) :
    ∃ mt' outcomes' more, mt.applyAll attempts = .ok (mt', outcomes') ∧
      outcomes'.map Prod.fst = attempts.map (fun a => a.write.entry) ∧
      mt.table.pool.Extends mt'.table.pool grants more
        (attempts.map fun a => writeCost a.write).sum ∧
      mt'.Holds (grants ++ more) (outcomes ++ outcomes') := by
  induction attempts generalizing mt grants outcomes with
  | nil =>
    refine ⟨mt, [], [], rfl, rfl, h.backed.stocked.extends _, ?_⟩
    rw [List.append_nil, List.append_nil]
    exact h
  | cons a attempts ih =>
    obtain ⟨halloc, hw⟩ := hws a List.mem_cons_self
    obtain ⟨ended, mt₁, more₁, happly, hext₁, h₁⟩ := h.apply halloc hw
    obtain ⟨mt₂, outcomes₂, more₂, hall, hentries, hext₂, h₂⟩ :=
      ih h₁ fun a ha => hws a (List.mem_cons_of_mem _ ha)
    refine ⟨mt₂, (a.write.entry, ended) :: outcomes₂, more₁ ++ more₂, ?_, ?_, hext₁.trans hext₂, ?_⟩
    · simp only [ArenaTable.applyAll, happly, Except.ok_bind, hall]
      rfl
    · rw [List.map_cons, List.map_cons, hentries]
    · rw [← List.append_assoc, ← List.singleton_append, ← List.append_assoc]
      exact h₂

/-- What the head of the list may take. -/
def headCost : Nat := ArenaList.insertCost [] [] SkipList.kMaxHeight

/-- The constructor gives an empty table. -/
theorem holds_new (halloc : Arena.Allocates alloc) (h : new alloc = some mt) :
    ∃ grants, mt.Holds grants [] ∧ Arena.costs grants ≤ headCost := by
  obtain ⟨table, htable, hmt⟩ := Option.bind_eq_some_iff.mp h
  obtain rfl := Option.some.inj hmt
  obtain ⟨grants, hbacked, hcost⟩ := ArenaList.backed_new halloc htable
  exact ⟨grants, ⟨hbacked, fun o ho => absurd ho List.not_mem_nil⟩, hcost⟩

/-- What readers find that do not look at the range. -/
theorem Holds.represents (h : mt.Holds grants outcomes) :
    SkipMemTable.Represents ⟨mt.table.decode, (MemTable.ofWrites (effects outcomes)).hasRange,
      (MemTable.ofWrites (effects outcomes)).minKey,
      (MemTable.ofWrites (effects outcomes)).maxKey⟩ (MemTable.ofWrites (effects outcomes)) :=
  ⟨h.backed.shows, rfl, rfl, rfl⟩

/-- `Get` finds the last value that took effect. -/
theorem Holds.get (h : mt.Holds grants outcomes) (k : Bytes) :
    mt.decode.get k = .ok (History.last k (effects outcomes)) := by
  rw [← MemTable.get_ofWrites]
  exact h.represents.get k

/-- A probe asks the range first. -/
theorem Holds.probe (h : mt.Holds grants outcomes) (k : Bytes) :
    mt.decode.probe k =
      .ok (if mt.hasRange = true ∧ mt.minKey ≤ k ∧ k ≤ mt.maxKey then
        (History.last k (effects outcomes)).filter fun v => decide (v ≠ []) else none) := by
  rw [SkipMemTable.probe, h.get]
  show (if mt.hasRange = true ∧ mt.minKey ≤ k ∧ k ≤ mt.maxKey then _ else _) = _
  split
  · cases History.last k (effects outcomes) with
    | none => rfl
    | some v =>
      by_cases hv : v = []
      · subst hv
        rfl
      · simp only [Except.ok_bind, if_neg hv, Option.filter, decide_eq_true hv, if_true]
        rfl
  · rfl

/-- **The memtable in its arena is exact**: whatever allocations throw, in an insertion or
when it has taken effect, reads and scans are those of the writes that took effect. The
range covers those that returned, so a probe, which asks the range first, finds what `Get`
finds but for keys none of whose writes returned: of these it may find nothing. The size by
which the table is found full is at least that of its entries.

Hypotheses:
* `halloc`, `hnew` — the constructor returned, with an allocator that keeps what `new
  char[]` promises;
* `hws` — so does the allocator of each attempt, and keys and values are shorter than `2 ^
  63` bytes.

Which attempts return is left open, and so are the heights that are drawn. -/
theorem arenaTable_exact (alloc : Arena.Allocator) (halloc : Arena.Allocates alloc)
    (mt₀ : ArenaTable) (hnew : new alloc = some mt₀) (attempts : List Attempt)
    (hws : ∀ a ∈ attempts, Arena.Allocates a.alloc ∧ Writable a.write) :
    ∃ mt outcomes es, mt₀.applyAll attempts = .ok (mt, outcomes) ∧
      outcomes.map Prod.fst = attempts.map (fun a => a.write.entry) ∧
      (∀ k, mt.decode.get k = .ok (History.last k (effects outcomes))) ∧
      (∀ o ∈ outcomes, o.2 = .returned →
        mt.hasRange = true ∧ mt.minKey ≤ o.1.1 ∧ o.1.1 ≤ mt.maxKey) ∧
      (∀ k, mt.decode.probe k =
          .ok ((History.last k (effects outcomes)).filter fun v => decide (v ≠ [])) ∨
        mt.decode.probe k = .ok none ∧ ∀ o ∈ outcomes, o.1.1 = k → o.2 ≠ .returned) ∧
      mt.decode.sortedEntries = .ok es ∧
      (es.Pairwise fun a b => a.1 < b.1) ∧
      (∀ k v, (k, v) ∈ es ↔ History.last k (effects outcomes) = some v) ∧
      (∀ start stop, mt.decode.scan start stop =
        .ok (es.filter fun e => decide (start ≤ e.1) && decide (e.1 ≤ stop))) ∧
      ArenaList.entryBytes es ≤ mt.approximateSize ∧
      2 * mt.approximateSize ≤
        3 * (headCost + (attempts.map fun a => writeCost a.write).sum) + 2 * (4096 + 8) := by
  obtain ⟨grants, h₀, hcost₀⟩ := holds_new halloc hnew
  obtain ⟨mt, outcomes, more, hall, hentries, hext, h⟩ := h₀.applyAll hws
  rw [List.nil_append] at h
  obtain ⟨hlower, hupper⟩ := h.backed.stocked.account.usage h.backed.stocked.laid
  refine ⟨mt, outcomes, (MemTable.ofWrites (effects outcomes)).sortedEntries, hall, hentries,
    h.get, h.covers, fun k => ?_, h.represents.sortedEntries,
    (MemTable.ofWrites (effects outcomes)).table.sorted, fun k v => ?_, fun start stop => ?_, ?_, ?_⟩
  -- inside the range a probe is a lookup, outside of it no write returned
  · by_cases hcovered : mt.hasRange = true ∧ mt.minKey ≤ k ∧ k ≤ mt.maxKey
    · exact .inl (by rw [h.probe, if_pos hcovered])
    · refine .inr ⟨by rw [h.probe, if_neg hcovered], fun o ho hk hreturned => ?_⟩
      exact hcovered (hk ▸ h.covers o ho hreturned)
  · rw [← MemTable.get_ofWrites]
    exact SortedMap.get?_eq_some_iff.symm
  · rw [← MemTable.scan_eq]
    exact h.represents.scan start stop
  · exact h.backed.covered.trans ((Nat.le_add_right _ _).trans hlower)
  · refine hupper.trans (Nat.add_le_add_right (Nat.mul_le_mul_left 3 ?_) _)
    rw [Arena.costs, List.map_append, List.sum_append]
    exact Nat.add_le_add hcost₀ hext.cost

/-- Attempts of which the second needs a block of its own and gets none, and the third
gets no memory for the upper end of the range. -/
def someAttempts : List Attempt :=
  [⟨.put [1] [7, 7] (SkipList.randomHeight [1]), Arena.allocAbove, (true, true)⟩,
    ⟨.put [3] (List.replicate 4000 0) (SkipList.randomHeight [4, 8, 1]), Arena.allocNone,
      (true, true)⟩,
    ⟨.put [2] [8] (SkipList.randomHeight [0, 1]), Arena.allocAbove, (true, false)⟩,
    ⟨.remove [1] (SkipList.randomHeight [1]), Arena.allocAbove, (true, true)⟩]

/-- Their allocators are as they should be. -/
theorem someAttempts_ok : ∀ a ∈ someAttempts, Arena.Allocates a.alloc ∧ Writable a.write := by
  refine List.forall_mem_cons.mpr ⟨⟨Arena.allocates_allocAbove, by decide, by decide⟩, ?_⟩
  refine List.forall_mem_cons.mpr ⟨⟨Arena.allocates_allocNone, by decide, ?_⟩, ?_⟩
  · exact (List.length_replicate (n := 4000) (a := (0 : UInt8))).trans_lt (by norm_num)
  refine List.forall_mem_cons.mpr ⟨⟨Arena.allocates_allocAbove, by decide, by decide⟩, ?_⟩
  exact List.forall_mem_singleton.mpr ⟨Arena.allocates_allocAbove, by decide, by decide⟩

set_option maxRecDepth 20000 in
/-- Three of the four take effect. -/
theorem someAttempts_effects :
    ((new Arena.allocAbove).bind fun mt =>
        (mt.applyAll someAttempts).toOption.map fun r => effects r.2) =
      some [([1], [7, 7]), ([2], [8]), ([1], [])] := rfl

/-- The second attempt is not seen, the third one is. -/
theorem arenaTable_exact_some :
    ∃ mt₀ mt outcomes, new Arena.allocAbove = some mt₀ ∧
      mt₀.applyAll someAttempts = .ok (mt, outcomes) ∧
      effects outcomes = [([1], [7, 7]), ([2], [8]), ([1], [])] ∧
      mt.decode.get [1] = .ok (some []) ∧ mt.decode.get [2] = .ok (some [8]) ∧
      mt.decode.get [3] = .ok none := by
  obtain ⟨mt₀, hnew⟩ : ∃ mt₀, new Arena.allocAbove = some mt₀ :=
    Option.isSome_iff_exists.mp (by decide)
  obtain ⟨mt, outcomes, -, hall, -, hget, -⟩ := arenaTable_exact Arena.allocAbove
    Arena.allocates_allocAbove mt₀ hnew someAttempts someAttempts_ok
  have heffects := someAttempts_effects
  rw [hnew, Option.bind_some, hall] at heffects
  have heffects : effects outcomes = [([1], [7, 7]), ([2], [8]), ([1], [])] :=
    Option.some.inj heffects
  refine ⟨mt₀, mt, outcomes, hnew, hall, heffects, ?_, ?_, ?_⟩ <;> rw [hget, heffects] <;> rfl

/-- **Views last**: what a view of a node shows is the same after any later writes, and it
lies in memory that is not freed. This is what lets the keys and values of nodes be views
into the arena, and scans return them while the table is written.

The assumptions are those of `arenaTable_exact`, for the writes so far and the later ones
(`hws`). Both may throw anywhere. -/
theorem views_last (alloc : Arena.Allocator) (halloc : Arena.Allocates alloc)
    (mt₀ : ArenaTable) (hnew : new alloc = some mt₀) (attempts later : List Attempt)
    (hws : ∀ a ∈ attempts ++ later, Arena.Allocates a.alloc ∧ Writable a.write) :
    ∃ mt outcomes mt' outcomes', mt₀.applyAll attempts = .ok (mt, outcomes) ∧
      mt.applyAll later = .ok (mt', outcomes') ∧
      ∀ n ∈ mt.table.nodes, ∀ v, v = n.key ∨ v = n.value →
        v.read mt'.table.pool.mem = v.read mt.table.pool.mem ∧
        (v.size = 0 ∨ ∃ b ∈ mt'.table.pool.arena.blocks, v.region.Within b) := by
  obtain ⟨grants, h₀, -⟩ := holds_new halloc hnew
  obtain ⟨mt, outcomes, more, hall, -, -, h⟩ :=
    h₀.applyAll fun a ha => hws a (List.mem_append_left later ha)
  obtain ⟨mt', outcomes', more', hall', -, hext, h'⟩ :=
    h.applyAll fun a ha => hws a (List.mem_append_right attempts ha)
  refine ⟨mt, outcomes, mt', outcomes', hall, hall', fun n hn v hv => ?_⟩
  have hheld : v.Held (grants ++ more) := by
    rcases hv with rfl | rfl
    · exact (h.backed.strung n hn).1
    · exact (h.backed.strung n hn).2
  refine ⟨hheld.read hext.keeps, (hheld.mono more').imp id fun hregion => ?_⟩
  obtain ⟨g, hg, hregion⟩ := hregion
  exact hregion ▸ h'.backed.stocked.laid.within g hg

/-- The value of the first node, after three more attempts. -/
theorem views_last_some :
    ∃ mt₀ mt outcomes mt' outcomes', new Arena.allocAbove = some mt₀ ∧
      mt₀.applyAll (someAttempts.take 1) = .ok (mt, outcomes) ∧
      mt.applyAll (someAttempts.drop 1) = .ok (mt', outcomes') ∧
      ∀ n ∈ mt.table.nodes, n.value.read mt'.table.pool.mem = n.value.read mt.table.pool.mem := by
  obtain ⟨mt₀, hnew⟩ : ∃ mt₀, new Arena.allocAbove = some mt₀ :=
    Option.isSome_iff_exists.mp (by decide)
  obtain ⟨mt, outcomes, mt', outcomes', hall, hall', hviews⟩ :=
    views_last Arena.allocAbove Arena.allocates_allocAbove mt₀ hnew (someAttempts.take 1)
      (someAttempts.drop 1) (by rw [List.take_append_drop]; exact someAttempts_ok)
  exact ⟨mt₀, mt, outcomes, mt', outcomes', hnew, hall, hall',
    fun n hn => (hviews n hn _ (.inr rfl)).1⟩

end ArenaTable

end Zenith
