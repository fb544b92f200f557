import Zenith.Lib.Bytes
import Zenith.Lib.Run

/-!
# Zenith — the block cache

The LRU cache of `block_cache.h`: a list of nodes with the most recently used one in front,
a map from keys to nodes of the list, and a counter of the cached bytes. A node keeps its
place in memory when it moves, so the map holds node ids; an id that is not in the list is
an iterator that dangles, which is a fault.

The counter is a `size_t`. It is what the blocks have together as long as the sum stays
below `2^64` (`Fits`); blocks are shared pointers, so that one block may be counted under
many keys, and a capacity near the top lets the sum wrap to 0 (`counter_wraps`).

Each call is told twice: what it does before it evicts (`ready`), and with the eviction
(`call`). The loop in `evict_if_needed` is modelled by its states (`evictStates`), so that
the counter can be said to be right at every turn and not only at the end. `Consistent` is
the agreement of the three parts; `Follows` says over it what the order of the list and its
blocks have to do with the calls so far, which a history of events records.

The mutex is not modelled: a method holds it as long as it uses the members, so calls come
one after the other. There is one cache in a process, which all its tables share.

Main result: `blockCache_lru` — in every run whose insertions fit, the three parts agree and
the cache is a byte-bounded LRU.
-/

namespace Zenith

/-- A node of the list. Its id stands for its place in memory. -/
structure BlockCache.Node where
  id : Nat
  key : Bytes
  block : Bytes
  deriving DecidableEq

/-- The members of the cache. `nextId` is not one of them: it numbers the nodes that
`emplace_front` allocates. -/
structure BlockCache where
  /-- front = MRU, back = LRU -/
  lru : List BlockCache.Node
  map : Bytes → Option Nat
  nextId : Nat
  capacityBytes : Nat
  currentBytes : Nat

namespace BlockCache

/-- 16 MiB. -/
def defaultCapBytes : Nat := 16 * 1024 * 1024

/-- The cache as it is constructed, with the capacity it has unless `set_capacity` is
called. -/
def new : BlockCache := ⟨[], fun _ => none, 0, defaultCapBytes, 0⟩

/-- `current_bytes_ += size` -/
def addBytes (current size : Nat) : Nat := (current + size) % 2 ^ 64

/-- `current_bytes_ -= size` -/
def subBytes (current size : Nat) : Nat := (current + (2 ^ 64 - size % 2 ^ 64)) % 2 ^ 64

/-- The node that an iterator points at. -/
def nodeAt (c : BlockCache) (id : Nat) : Except Fault Node :=
  match c.lru.find? fun n => decide (n.id = id) with
  | some n => .ok n
  | none => .error .outOfBounds

/-- The list without the node that is spliced to the front. -/
def others (c : BlockCache) (id : Nat) : List Node := c.lru.filter fun n => decide (n.id ≠ id)

/-- `get`: the block of a key, whose node is spliced to the front. -/
def get (c : BlockCache) (key : Bytes) : Except Fault (Option Bytes × BlockCache) :=
  match c.map key with
  | none => .ok (none, c)
  | some id => do
    let n ← c.nodeAt id
    return (some n.block, { c with lru := n :: c.others id })

-- ---------------------------------------------------------------------------
-- Eviction
-- ---------------------------------------------------------------------------

/-- The body of the loop in `evict_if_needed`. -/
def evictBack (c : BlockCache) (back : Node) : BlockCache :=
  { c with
    currentBytes := subBytes c.currentBytes back.block.length
    map := Function.update c.map back.key none
    lru := c.lru.dropLast }

/-- The states at the head of the loop; each turn makes the list shorter. -/
def evictStates : Nat → BlockCache → List BlockCache
  | 0, c => [c]
  | n + 1, c =>
    if c.currentBytes > c.capacityBytes then
      match c.lru.getLast? with
      | some back => c :: evictStates n (c.evictBack back)
      | none => [c]
    else [c]

/-- `evict_if_needed`: the state in which the loop ends. -/
def evictIfNeeded (c : BlockCache) : BlockCache := (evictStates c.lru.length c).getLastD c

-- ---------------------------------------------------------------------------
-- Calls
-- ---------------------------------------------------------------------------

/-- `put` up to the eviction. -/
def insert (c : BlockCache) (key block : Bytes) : Except Fault BlockCache :=
  match c.map key with
  | some id => do
    let n ← c.nodeAt id
    return { c with
      currentBytes := addBytes (subBytes c.currentBytes n.block.length) block.length
      lru := { n with block := block } :: c.others id }
  | none =>
    .ok { c with
      lru := ⟨c.nextId, key, block⟩ :: c.lru
      nextId := c.nextId + 1
      map := Function.update c.map key (some c.nextId)
      currentBytes := addBytes c.currentBytes block.length }

/-- The calls that change the cache. -/
inductive Call
  | get (key : Bytes)
  /-- a null block is ignored -/
  | put (key : Bytes) (value : Option Bytes)
  | setCapacity (bytes : Nat)

/-- What a call does before it evicts. -/
def ready (c : BlockCache) : Call → Except Fault BlockCache
  | .get key => (c.get key).map Prod.snd
  | .put _ none => .ok c
  | .put key (some block) => c.insert key block
  | .setCapacity bytes => .ok { c with capacityBytes := bytes }

/-- `put` -/
def put (c : BlockCache) (key : Bytes) (value : Option Bytes) : Except Fault BlockCache :=
  match value with
  | none => .ok c
  | some block => (c.insert key block).map evictIfNeeded

/-- `set_capacity`. A smaller one evicts at once. -/
def setCapacity (c : BlockCache) (bytes : Nat) : BlockCache :=
  evictIfNeeded { c with capacityBytes := bytes }

/-- Any of them, with its eviction. -/
def call (c : BlockCache) : Call → Except Fault BlockCache
  | .get key => (c.get key).map Prod.snd
  | .put key value => c.put key value
  | .setCapacity bytes => .ok (c.setCapacity bytes)

-- ---------------------------------------------------------------------------
-- The three parts of the cache
-- ---------------------------------------------------------------------------

/-- The bytes of some nodes together. -/
def total (l : List Node) : Nat := (l.map fun n => n.block.length).sum

/-- The list, the map and the counter agree. -/
structure Consistent (c : BlockCache) : Prop where
  keys : (c.lru.map Node.key).Nodup
  ids : (c.lru.map Node.id).Nodup
  map_iff : ∀ k id, c.map k = some id ↔ ∃ n ∈ c.lru, n.key = k ∧ n.id = id
  below : ∀ n ∈ c.lru, n.id < c.nextId
  bytes : c.currentBytes = total c.lru
  total_lt : total c.lru < 2 ^ 64

/-- The bytes of two lists together. -/
theorem total_append (l r : List Node) : total (l ++ r) = total l + total r := by
  rw [total, List.map_append, List.sum_append]
  rfl

/-- Those of one node more. -/
theorem total_cons (n : Node) (l : List Node) : total (n :: l) = n.block.length + total l :=
  List.sum_cons

/-- Without overflow the counter adds. -/
theorem addBytes_eq {a b : Nat} (h : a + b < 2 ^ 64) : addBytes a b = a + b :=
  Nat.mod_eq_of_lt h

/-- No underflow: what is subtracted is part of the sum. -/
theorem subBytes_eq {a b : Nat} (ha : a < 2 ^ 64) (h : b ≤ a) : subBytes a b = a - b := by
  unfold subBytes
  omega

namespace Consistent

variable {c : BlockCache}

/-- Nothing is cached yet. -/
theorem new : Consistent new :=
  ⟨List.nodup_nil, List.nodup_nil, fun _ _ => by simp [BlockCache.new], fun _ h => by
    exact absurd h List.not_mem_nil, rfl, by decide⟩

/-- A cached node, with the nodes around it. -/
theorem split_at (h : Consistent c) {l r : List Node} {n : Node} (hsplit : c.lru = l ++ n :: r) :
    c.nodeAt n.id = .ok n ∧ c.others n.id = l ++ r ∧
      (∀ m ∈ l ++ r, m.key ≠ n.key ∧ m.id ≠ n.id) ∧ ((l ++ r).map Node.key).Nodup ∧
      ((l ++ r).map Node.id).Nodup := by
  -- what is known of all keys and ids, for this node against the others
  have hperm : (l ++ n :: r).Perm (n :: (l ++ r)) := List.perm_middle
  have hkeys := (hperm.map Node.key).nodup_iff.mp (hsplit ▸ h.keys)
  have hids := (hperm.map Node.id).nodup_iff.mp (hsplit ▸ h.ids)
  rw [List.map_cons, List.nodup_cons] at hkeys hids
  have hne : ∀ m ∈ l ++ r, m.key ≠ n.key ∧ m.id ≠ n.id := fun m hm =>
    ⟨fun heq => hkeys.1 (heq ▸ List.mem_map_of_mem hm),
      fun heq => hids.1 (heq ▸ List.mem_map_of_mem hm)⟩
  have hl : ∀ m ∈ l, decide (m.id ≠ n.id) = true := fun m hm =>
    decide_eq_true (hne m (List.mem_append_left r hm)).2
  have hr : ∀ m ∈ r, decide (m.id ≠ n.id) = true := fun m hm =>
    decide_eq_true (hne m (List.mem_append_right l hm)).2
  refine ⟨?_, ?_, hne, hkeys.2, hids.2⟩
  · have hfind : c.lru.find? (fun m => decide (m.id = n.id)) = some n := by
      have hnone : l.find? (fun m => decide (m.id = n.id)) = none :=
        List.find?_eq_none.mpr fun m hm => by simpa using hl m hm
      rw [hsplit, List.find?_append, hnone]
      simp
    rw [nodeAt, hfind]
  · rw [others, hsplit, List.filter_append, List.filter_eq_self.mpr hl,
      List.filter_cons_of_neg (by simp), List.filter_eq_self.mpr hr]

/-- Where a key of the map leads. -/
theorem exists_split (h : Consistent c) {key : Bytes} {id : Nat} (hmap : c.map key = some id) :
    ∃ l n r, c.lru = l ++ n :: r ∧ n.key = key ∧ n.id = id := by
  obtain ⟨n, hn, hkey, hid⟩ := (h.map_iff key id).mp hmap
  obtain ⟨l, r, hsplit⟩ := List.append_of_mem hn
  exact ⟨l, n, r, hsplit, hkey, hid⟩

/-- A key that the map does not have is not cached. -/
theorem ne_of_map_eq_none (h : Consistent c) {key : Bytes} (hmap : c.map key = none) :
    ∀ n ∈ c.lru, n.key ≠ key := by
  intro n hn hkey
  rw [(h.map_iff key n.id).mpr ⟨n, hn, hkey, rfl⟩] at hmap
  exact absurd hmap (by simp)

/-- **To the front**: the node of a key, with its block or another one. -/
theorem toFront (h : Consistent c) {l r : List Node} {n : Node} (hsplit : c.lru = l ++ n :: r)
    (block : Bytes) (hfits : block.length + total (l ++ r) < 2 ^ 64) :
    Consistent { c with
      currentBytes := block.length + total (l ++ r)
      lru := { n with block := block } :: (l ++ r) } := by
  obtain ⟨-, -, hne, hkeys, hids⟩ := h.split_at hsplit
  have hmem : ∀ m, m ∈ c.lru ↔ m = n ∨ m ∈ l ++ r := fun m => by
    rw [hsplit, List.mem_append, List.mem_cons, List.mem_append]
    tauto
  refine ⟨List.nodup_cons.mpr ⟨fun hmem => ?_, hkeys⟩, List.nodup_cons.mpr ⟨fun hmem => ?_, hids⟩,
    fun k id => ?_, fun m hm => ?_, (total_cons { n with block := block } (l ++ r)).symm, ?_⟩
  -- an id leads to the node in front or, as before, to one of the others
  · obtain ⟨m, hm, heq⟩ := List.mem_map.mp hmem
    exact (hne m hm).1 heq
  · obtain ⟨m, hm, heq⟩ := List.mem_map.mp hmem
    exact (hne m hm).2 heq
  · -- the node kept its key and its place
    rw [h.map_iff k id, List.exists_mem_cons_iff]
    simp only [hmem, exists_eq_or_imp]
  · rcases List.mem_cons.mp hm with rfl | hm
    · exact h.below n ((hmem n).mpr (.inl rfl))
    · exact h.below m ((hmem m).mpr (.inr hm))
  · rw [total_cons]
    exact hfits

/-- **A new node** in front. -/
theorem cons (h : Consistent c) {key block : Bytes} (hmap : c.map key = none)
    (hfits : block.length + total c.lru < 2 ^ 64) :
    Consistent { c with
      lru := ⟨c.nextId, key, block⟩ :: c.lru
      nextId := c.nextId + 1
      map := Function.update c.map key (some c.nextId)
      currentBytes := block.length + total c.lru } := by
  have hne := h.ne_of_map_eq_none hmap
  refine ⟨List.nodup_cons.mpr ⟨fun hmem => ?_, h.keys⟩,
    List.nodup_cons.mpr ⟨fun hmem => ?_, h.ids⟩, fun k id => ?_, fun m hm => ?_,
    (total_cons ⟨c.nextId, key, block⟩ c.lru).symm, ?_⟩
  · obtain ⟨m, hm, heq⟩ := List.mem_map.mp hmem
    exact hne m hm heq
  · obtain ⟨m, hm, heq⟩ := List.mem_map.mp hmem
    exact absurd heq (h.below m hm).ne
  -- the new id is below none that is in the list, so no old key leads to it
  · show Function.update c.map key (some c.nextId) k = some id ↔ _
    rw [List.exists_mem_cons_iff]
    by_cases hk : k = key
    · subst hk
      rw [Function.update_self, Option.some_inj]
      exact ⟨fun hid => .inl ⟨rfl, hid⟩, fun hex => hex.elim (fun hid => hid.2)
        fun ⟨m, hm, heq, _⟩ => absurd heq (hne m hm)⟩
    · rw [Function.update_of_ne hk, h.map_iff k id]
      exact ⟨.inr, fun hex => hex.elim (fun hid => absurd hid.1.symm hk) fun hex => hex⟩
  · rcases List.mem_cons.mp hm with rfl | hm
    · exact Nat.lt_succ_self _
    · exact Nat.lt_succ_of_lt (h.below m hm)
  · rw [total_cons]
    exact hfits

end Consistent

-- ---------------------------------------------------------------------------
-- What the calls do
-- ---------------------------------------------------------------------------

/-- `evicted` is the shortest suffix of the list without which the rest is within the
capacity. -/
structure EvictsTo (c c' : BlockCache) (evicted : List Node) : Prop where
  lru : c.lru = c'.lru ++ evicted
  capacity : c'.capacityBytes = c.capacityBytes
  within : c'.currentBytes ≤ c.capacityBytes
  shortest : ∀ kept evicted', c.lru = kept ++ evicted' → total kept ≤ c.capacityBytes →
    evicted.length ≤ evicted'.length

/-- Within the capacity nothing is evicted. -/
theorem EvictsTo.refl {c : BlockCache} (h : c.currentBytes ≤ c.capacityBytes) :
    EvictsTo c c [] :=
  ⟨(List.append_nil _).symm, rfl, h, fun _ _ _ _ => Nat.zero_le _⟩

/-- The nodes of the other keys. -/
def otherKeys (c : BlockCache) (key : Bytes) : List Node :=
  c.lru.filter fun n => decide (n.key ≠ key)

namespace Consistent

variable {c : BlockCache}

/-- They are the nodes in front of it and behind it. -/
theorem otherKeys_of_split (h : Consistent c) {l r : List Node} {n : Node}
    (hsplit : c.lru = l ++ n :: r) : c.otherKeys n.key = l ++ r := by
  obtain ⟨-, -, hne, -, -⟩ := h.split_at hsplit
  have hl : ∀ m ∈ l, decide (m.key ≠ n.key) = true := fun m hm =>
    decide_eq_true (hne m (List.mem_append_left r hm)).1
  have hr : ∀ m ∈ r, decide (m.key ≠ n.key) = true := fun m hm =>
    decide_eq_true (hne m (List.mem_append_right l hm)).1
  rw [otherKeys, hsplit, List.filter_append, List.filter_eq_self.mpr hl,
    List.filter_cons_of_neg (by simp), List.filter_eq_self.mpr hr]

/-- Without a node of that key they are all. -/
theorem otherKeys_of_none (h : Consistent c) {key : Bytes} (hmap : c.map key = none) :
    c.otherKeys key = c.lru :=
  List.filter_eq_self.mpr fun n hn => decide_eq_true (h.ne_of_map_eq_none hmap n hn)

/-- **get**: a hit moves its node to the front and nothing else. -/
theorem get_hit (h : Consistent c) {key : Bytes} {id : Nat} (hmap : c.map key = some id) :
    ∃ n ∈ c.lru, n.key = key ∧ c.get key = .ok (some n.block, { c with
      lru := n :: c.otherKeys key }) ∧ Consistent { c with lru := n :: c.otherKeys key } := by
  obtain ⟨l, n, r, hsplit, rfl, rfl⟩ := h.exists_split hmap
  obtain ⟨hnode, hothers, -⟩ := h.split_at hsplit
  have htotal : total c.lru = n.block.length + total (l ++ r) := by
    rw [hsplit, total_append, total_append, total_cons]
    omega
  have hfront := h.toFront hsplit n.block (htotal ▸ h.total_lt)
  rw [← htotal, ← h.bytes] at hfront
  refine ⟨n, by simp [hsplit], rfl, ?_, ?_⟩
  · rw [BlockCache.get, hmap]
    simp only [hnode, hothers, h.otherKeys_of_split hsplit]
    rfl
  · rw [h.otherKeys_of_split hsplit]
    exact hfront

/-- **get** without a node changes nothing. -/
theorem get_miss {key : Bytes} (hmap : c.map key = none) : c.get key = .ok (none, c) := by
  rw [BlockCache.get, hmap]

/-- **put** before it evicts: the block in front of the other keys. -/
theorem insert_spec (h : Consistent c) {key block : Bytes}
    (hfits : block.length + total (c.otherKeys key) < 2 ^ 64) :
    ∃ n c', n.key = key ∧ n.block = block ∧ c.insert key block = .ok c' ∧ Consistent c' ∧
      c'.lru = n :: c.otherKeys key ∧ c'.capacityBytes = c.capacityBytes := by
  -- a key that is new gets a node; one that is cached keeps its node and changes the block
  cases hmap : c.map key with
  | some id =>
    obtain ⟨l, n, r, hsplit, rfl, rfl⟩ := h.exists_split hmap
    obtain ⟨hnode, hothers, -⟩ := h.split_at hsplit
    rw [h.otherKeys_of_split hsplit] at hfits
    have htotal : total c.lru = n.block.length + total (l ++ r) := by
      rw [hsplit, total_append, total_append, total_cons]
      omega
    -- the old block was counted, so taking it off does not underflow
    have hbytes : addBytes (subBytes c.currentBytes n.block.length) block.length =
        block.length + total (l ++ r) := by
      rw [subBytes_eq (h.bytes ▸ h.total_lt) (by rw [h.bytes]; omega), h.bytes,
        addBytes_eq (by omega)]
      omega
    refine ⟨{ n with block := block }, _, rfl, rfl, ?_, h.toFront hsplit block hfits, ?_, rfl⟩
    · rw [insert, hmap]
      simp only [hnode, Except.ok_bind, hbytes, hothers]
      rfl
    · rw [h.otherKeys_of_split hsplit]
  | none =>
    rw [h.otherKeys_of_none hmap] at hfits ⊢
    refine ⟨⟨c.nextId, key, block⟩, _, rfl, rfl, ?_, h.cons hmap hfits, rfl, rfl⟩
    have hbytes : addBytes c.currentBytes block.length = block.length + total c.lru := by
      rw [h.bytes, addBytes_eq (by omega)]
      exact Nat.add_comm _ _
    rw [insert, hmap, hbytes]

/-- One turn of the eviction loop. -/
theorem evictBack (h : Consistent c) {l : List Node} {back : Node} (hsplit : c.lru = l ++ [back]) :
    Consistent (c.evictBack back) ∧ (c.evictBack back).lru = l := by
  obtain ⟨-, -, hne, hkeys, hids⟩ := h.split_at hsplit
  rw [List.append_nil] at hne hkeys hids
  have hlru : (c.evictBack back).lru = l := by
    rw [BlockCache.evictBack, hsplit, List.dropLast_concat]
  have htotal : total c.lru = total l + back.block.length := by
    rw [hsplit, total_append, total_cons]
    rfl
  have hlt := h.total_lt
  -- the counter held the whole sum, so it does not go below zero
  have hbytes : (c.evictBack back).currentBytes = total l := by
    show subBytes c.currentBytes back.block.length = total l
    rw [subBytes_eq (h.bytes ▸ hlt) (by rw [h.bytes]; omega), h.bytes]
    omega
  refine ⟨⟨hlru ▸ hkeys, hlru ▸ hids, fun k id => ?_, fun m hm => ?_, by rw [hbytes, hlru], ?_⟩,
    hlru⟩
  · rw [hlru]
    show Function.update c.map back.key none k = some id ↔ _
    by_cases hk : k = back.key
    · -- the entry of the evicted key is erased
      subst hk
      rw [Function.update_self]
      exact ⟨fun hid => absurd hid (by simp), fun ⟨m, hm, heq, _⟩ => absurd heq (hne m hm).1⟩
    · rw [Function.update_of_ne hk, h.map_iff k id, hsplit]
      constructor
      · rintro ⟨m, hm, hmk, hmid⟩
        rcases List.mem_append.mp hm with hm | hm
        · exact ⟨m, hm, hmk, hmid⟩
        · exact absurd (hmk.symm.trans (congrArg Node.key (List.mem_singleton.mp hm))) hk
      · rintro ⟨m, hm, hrest⟩
        exact ⟨m, List.mem_append_left _ hm, hrest⟩
  · exact h.below m (by rw [hsplit]; exact List.mem_append_left _ (hlru ▸ hm))
  · rw [hlru]
    omega

/-- **Eviction**, by induction on the list: the parts agree at each turn, and what is
dropped is as little as possible. -/
theorem evictStates_spec (h : Consistent c) {n : Nat} (hn : n = c.lru.length) :
    (∀ s ∈ evictStates n c, Consistent s) ∧
      ∃ c' evicted, (evictStates n c).getLast? = some c' ∧ Consistent c' ∧
        EvictsTo c c' evicted := by
  have hone : ∀ s ∈ [c], Consistent s := fun s hs => List.mem_singleton.mp hs ▸ h
  induction n generalizing c with
  | zero =>
    have hempty : c.lru = [] := List.eq_nil_of_length_eq_zero hn.symm
    have hbytes : c.currentBytes = 0 := by rw [h.bytes, hempty]; rfl
    exact ⟨hone, c, [], rfl, h, .refl (by omega)⟩
  | succ n ih =>
    rw [evictStates]
    split
    · next hgt =>
      -- over the limit, so the list is not empty and its back goes
      obtain ⟨l, back, hsplit⟩ : ∃ l back, c.lru = l ++ [back] :=
        List.eq_nil_or_concat' c.lru |>.resolve_left fun hnil => by simp [hnil] at hn
      have hlast : c.lru.getLast? = some back := by rw [hsplit, List.getLast?_concat]
      obtain ⟨hback, hlru⟩ := h.evictBack hsplit
      have hlen : n = (c.evictBack back).lru.length := by
        rw [hlru]
        rw [hsplit, List.length_append, List.length_singleton] at hn
        omega
      -- the rest, by induction
      obtain ⟨hall, c', evicted, hc', hconsistent, hevicts⟩ :=
        ih hback hlen fun s hs => List.mem_singleton.mp hs ▸ hback
      simp only [hlast]
      refine ⟨fun s hs => ?_, c', evicted ++ [back], ?_, hconsistent, ?_, hevicts.capacity,
        hevicts.within, fun kept evicted' hkept hle => ?_⟩
      · rcases List.mem_cons.mp hs with rfl | hs
        · exact h
        · exact hall s hs
      · rw [List.getLast?_cons, hc']
        rfl
      · rw [hsplit, ← hlru, hevicts.lru, List.append_assoc]
      · -- the whole list is too large, so at least `back` goes
        rcases List.eq_nil_or_concat' evicted' with rfl | ⟨e, b, rfl⟩
        · rw [List.append_nil] at hkept
          rw [← hkept, ← h.bytes] at hle
          omega
        · rw [hsplit, ← List.append_assoc] at hkept
          obtain ⟨hl, -⟩ := List.append_inj' hkept rfl
          have := hevicts.shortest kept e (hlru.trans hl) hle
          simp only [List.length_append, List.length_singleton]
          omega
    · next hle => exact ⟨hone, c, [], rfl, h, .refl (not_lt.mp hle)⟩

/-- **Eviction**, as `put` and `set_capacity` call it. -/
theorem evictIfNeeded (h : Consistent c) :
    (∀ s ∈ evictStates c.lru.length c, Consistent s) ∧ Consistent c.evictIfNeeded ∧
      ∃ evicted, EvictsTo c c.evictIfNeeded evicted := by
  obtain ⟨hall, c', evicted, hc', hconsistent, hevicts⟩ := h.evictStates_spec rfl
  have heq : c.evictIfNeeded = c' := by
    rw [BlockCache.evictIfNeeded, List.getLastD_eq_getLast?, hc']
    rfl
  exact ⟨hall, heq ▸ hconsistent, evicted, heq ▸ hevicts⟩

end Consistent

-- ---------------------------------------------------------------------------
-- Histories
-- ---------------------------------------------------------------------------

/-- What happens to the entry of a key. -/
inductive Event
  | touched (key : Bytes)
  | filled (key block : Bytes)
  | evicted (key : Bytes)

/-- The keys that were put or hit, in order. -/
def touches (tr : List Event) : List Bytes := tr.filterMap fun e =>
  match e with
  | .touched key => some key
  | _ => none

/-- What each key was filled with, or that it was evicted, in order. -/
def contents (tr : List Event) : List (Bytes × Option Bytes) := tr.filterMap fun e =>
  match e with
  | .touched _ => none
  | .filled key block => some (key, some block)
  | .evicted key => some (key, none)

/-- What a call does to a key before it evicts. -/
def touchEvents (c : BlockCache) : Call → List Event
  | .get key => if (c.map key).isSome then [.touched key] else []
  | .put _ none => []
  | .put key (some block) => [.touched key, .filled key block]
  | .setCapacity _ => []

/-- What an eviction drops. -/
def evictEvents (c : BlockCache) : List Event :=
  (c.lru.drop c.evictIfNeeded.lru.length).map fun n => .evicted n.key

/-- What a call does to the keys, its eviction last. -/
def events (c : BlockCache) (call : Call) : List Event :=
  match c.ready call with
  | .ok r => c.touchEvents call ++ r.evictEvents
  | .error _ => []

/-- The cache under any sequence of calls. -/
def cache : System BlockCache Call Event Fault := ⟨call, events⟩

/-- The new block is counted without overflow. -/
def Fits (c : BlockCache) : Call → Prop
  | .put key (some block) => block.length + total (c.otherKeys key) < 2 ^ 64
  | _ => True

instance (c : BlockCache) (call : Call) : Decidable (c.Fits call) :=
  match call with
  | .put key (some block) =>
    inferInstanceAs (Decidable (block.length + total (c.otherKeys key) < 2 ^ 64))
  | .put _ none | .get _ | .setCapacity _ => isTrue trivial

/-- `a` was touched, and `b` not since. -/
def MoreRecent (touched : List Bytes) (a b : Bytes) : Prop :=
  ∃ before after, touched = before ++ a :: after ∧ b ∉ a :: after

/-- A block is cached under a key. -/
def Holds (l : List Node) (k b : Bytes) : Prop := ∃ n ∈ l, n.key = k ∧ n.block = b

/-- The node in front or one behind it. -/
theorem holds_cons {n : Node} {l : List Node} {k b : Bytes} :
    Holds (n :: l) k b ↔ (n.key = k ∧ n.block = b) ∨ Holds l k b := List.exists_mem_cons_iff ..

/-- The cache after some events. -/
structure Follows (tr : List Event) (c : BlockCache) : Prop where
  consistent : Consistent c
  order : (c.lru.map Node.key).Pairwise (MoreRecent (touches tr))
  content : ∀ k b, History.last k (contents tr) = some (some b) ↔ Holds c.lru k b

/-- Nothing has happened. -/
theorem follows_new : Follows [] new :=
  ⟨.new, List.Pairwise.nil, fun k b => by simp [contents, new, Holds]⟩

/-- Later events come behind. -/
theorem touches_append (tr tr' : List Event) : touches (tr ++ tr') = touches tr ++ touches tr' :=
  List.filterMap_append

/-- So do their blocks. -/
theorem contents_append (tr tr' : List Event) :
    contents (tr ++ tr') = contents tr ++ contents tr' := List.filterMap_append

/-- A touch of another key keeps the order of two. -/
theorem MoreRecent.touch {touched : List Bytes} {a b key : Bytes} (h : MoreRecent touched a b)
    (hb : b ≠ key) : MoreRecent (touched ++ [key]) a b := by
  obtain ⟨before, after, rfl, hnot⟩ := h
  refine ⟨before, after ++ [key], by simp, ?_⟩
  simpa [hb] using hnot

/-- The key touched last is more recent than any other. -/
theorem moreRecent_self {touched : List Bytes} {key b : Bytes} (hb : b ≠ key) :
    MoreRecent (touched ++ [key]) key b := ⟨touched, [], rfl, by simpa using hb⟩

/-- A node of another key. -/
theorem mem_otherKeys {c : BlockCache} {key : Bytes} {n : Node} :
    n ∈ c.otherKeys key ↔ n ∈ c.lru ∧ n.key ≠ key := by
  rw [otherKeys, List.mem_filter, decide_eq_true_iff]

/-- Other keys hold what they did. -/
theorem holds_otherKeys {c : BlockCache} {key k b : Bytes} :
    Holds (c.otherKeys key) k b ↔ k ≠ key ∧ Holds c.lru k b := by
  constructor
  · rintro ⟨n, hn, rfl, hb⟩
    obtain ⟨hmem, hne⟩ := mem_otherKeys.mp hn
    exact ⟨hne, n, hmem, rfl, hb⟩
  · rintro ⟨hne, n, hn, rfl, hb⟩
    exact ⟨n, mem_otherKeys.mpr ⟨hn, hne⟩, rfl, hb⟩

/-- A key holds one block. -/
theorem Consistent.holds_iff {c : BlockCache} (h : Consistent c) {n : Node} (hn : n ∈ c.lru)
    (b : Bytes) : Holds c.lru n.key b ↔ n.block = b := by
  constructor
  · rintro ⟨m, hm, hkey, hb⟩
    rw [← List.inj_on_of_nodup_map h.keys hm hn hkey]
    exact hb
  · rintro rfl
    exact ⟨n, hn, rfl, rfl⟩

/-- Within the capacity the loop is not entered. -/
theorem evictIfNeeded_of_le {c : BlockCache} (h : c.currentBytes ≤ c.capacityBytes) :
    c.evictIfNeeded = c := by
  rw [evictIfNeeded]
  cases c.lru.length with
  | zero => rfl
  | succ n =>
    rw [evictStates, if_neg h.not_gt]
    rfl

/-- A key that was evicted last holds nothing. -/
theorem last_evicted (h : List (Bytes × Option Bytes)) (evicted : List Node) (k : Bytes) :
    History.last k (h ++ evicted.map fun n => (n.key, none)) =
      if k ∈ evicted.map Node.key then some none else History.last k h := by
  induction evicted using List.reverseRecOn with
  | nil => simp
  | append_singleton evicted n ih =>
    rw [List.map_append, List.map_singleton, ← List.append_assoc, History.last_append_singleton, ih]
    by_cases hk : k = n.key
    · simp [hk]
    · simp [hk]

namespace Follows

variable {tr : List Event} {c : BlockCache}

/-- The touched key goes in front of the others. -/
theorem order_touch (h : Follows tr c) {key : Bytes} {n : Node} (hn : n.key = key) :
    ((n :: c.otherKeys key).map Node.key).Pairwise (MoreRecent (touches tr ++ [key])) := by
  have hother : ∀ b ∈ (c.otherKeys key).map Node.key, b ≠ key := fun b hb => by
    obtain ⟨m, hm, rfl⟩ := List.mem_map.mp hb
    exact (mem_otherKeys.mp hm).2
  rw [List.map_cons, hn]
  refine List.pairwise_cons.mpr ⟨fun b hb => moreRecent_self (hother b hb), ?_⟩
  have hsub : ((c.otherKeys key).map Node.key).Sublist (c.lru.map Node.key) :=
    List.filter_sublist.map Node.key
  exact (h.order.sublist hsub).imp_of_mem fun _ hb hab => hab.touch (hother _ hb)

/-- **get** -/
theorem get (h : Follows tr c) (key : Bytes) :
    ∃ c', c.get key = .ok ((History.last key (contents tr)).join, c') ∧
      Follows (tr ++ c.touchEvents (.get key)) c' ∧ c'.capacityBytes = c.capacityBytes ∧
      c'.currentBytes = c.currentBytes := by
  -- a key that is not cached was never filled, or evicted since
  cases hmap : c.map key with
  | none =>
    have hnone : (History.last key (contents tr)).join = none := by
      rw [Option.eq_none_iff_forall_ne_some]
      intro b hb
      obtain ⟨n, hn, hkey, -⟩ := (h.content key b).mp (Option.join_eq_some_iff.mp hb)
      exact h.consistent.ne_of_map_eq_none hmap n hn hkey
    refine ⟨c, by rw [hnone, Consistent.get_miss hmap], ?_, rfl, rfl⟩
    rw [touchEvents, hmap]
    exact (List.append_nil tr).symm ▸ h
  | some id =>
    obtain ⟨n, hn, rfl, hget, hconsistent⟩ := h.consistent.get_hit hmap
    have hlast := (h.content n.key n.block).mpr ⟨n, hn, rfl, rfl⟩
    refine ⟨_, by rw [hget, hlast]; rfl, ⟨hconsistent, ?_, fun k b => ?_⟩, rfl, rfl⟩
    · rw [touchEvents, hmap, touches_append]
      exact h.order_touch rfl
    · rw [touchEvents, hmap, contents_append]
      show History.last k (contents tr ++ []) = some (some b) ↔ _
      rw [List.append_nil, h.content k b, holds_cons, holds_otherKeys]
      -- no block has changed, only the order
      by_cases hk : k = n.key
      · subst hk
        rw [h.consistent.holds_iff hn b]
        simp
      · simp [hk, Ne.symm hk]

/-- **put** before it evicts -/
theorem insert (h : Follows tr c) {key block : Bytes} (hfits : c.Fits (.put key (some block))) :
    ∃ c', c.insert key block = .ok c' ∧
      Follows (tr ++ c.touchEvents (.put key (some block))) c' ∧
      c'.capacityBytes = c.capacityBytes := by
  obtain ⟨n, c', hkey, hblock, hinsert, hconsistent, hlru, hcap⟩ :=
    h.consistent.insert_spec hfits
  refine ⟨c', hinsert, ⟨hconsistent, ?_, fun k b => ?_⟩, hcap⟩
  · rw [touches_append, hlru]
    exact h.order_touch hkey
  · rw [contents_append]
    show History.last k (contents tr ++ [(key, some block)]) = some (some b) ↔ _
    rw [History.last_append_singleton, hlru, holds_cons, holds_otherKeys, hkey, hblock]
    by_cases hk : k = key
    · subst hk
      simp
    · simp [hk, Ne.symm hk, h.content k b]

/-- **Eviction** -/
theorem evict (h : Follows tr c) :
    Follows (tr ++ c.evictEvents) c.evictIfNeeded ∧
      c.evictIfNeeded.currentBytes ≤ c.evictIfNeeded.capacityBytes := by
  obtain ⟨-, hconsistent, evicted, hevicts⟩ := h.consistent.evictIfNeeded
  set c' := c.evictIfNeeded with hc'
  have hevents : c.evictEvents = evicted.map fun n => .evicted n.key := by
    rw [evictEvents, ← hc', hevicts.lru, List.drop_left]
  have htouches : touches (evicted.map fun n => .evicted n.key) = [] := by
    simp [touches, List.filterMap_map]
  have hcontents : contents (evicted.map fun n => .evicted n.key) =
      evicted.map fun n => (n.key, none) := by
    simp [contents, List.filterMap_map]
  have hnodup := h.consistent.keys
  rw [hevicts.lru, List.map_append, List.nodup_append] at hnodup
  obtain ⟨-, -, hdisjoint⟩ := hnodup
  refine ⟨⟨hconsistent, ?_, fun k b => ?_⟩, hevicts.capacity ▸ hevicts.within⟩
  · rw [hevents, touches_append, htouches, List.append_nil]
    -- the kept nodes are a prefix, so their order stays
    have horder := h.order
    rw [hevicts.lru, List.map_append, List.pairwise_append] at horder
    exact horder.1
  · rw [hevents, contents_append, hcontents, last_evicted]
    -- a key is held by what stayed or by what went, not by both
    have hlru : Holds c.lru k b ↔ Holds c'.lru k b ∨ Holds evicted k b := by
      simp only [Holds, hevicts.lru, List.mem_append, or_and_right, exists_or]
    by_cases hk : k ∈ evicted.map Node.key
    · rw [if_pos hk]
      refine ⟨fun heq => absurd heq (by simp), fun hholds => ?_⟩
      obtain ⟨m, hm, rfl, -⟩ := hholds
      exact absurd rfl (hdisjoint m.key (List.mem_map_of_mem hm) m.key hk)
    · rw [if_neg hk, h.content k b, hlru]
      refine or_iff_left fun hholds => ?_
      obtain ⟨m, hm, rfl, -⟩ := hholds
      exact hk (List.mem_map_of_mem hm)

/-- **One call.** -/
theorem call (h : Follows tr c) (hle : c.currentBytes ≤ c.capacityBytes) {call : Call}
    (hfits : c.Fits call) :
    ∃ r c', c.ready call = .ok r ∧ c.call call = .ok c' ∧ Consistent r ∧ c' = r.evictIfNeeded ∧
      Follows (tr ++ c.events call) c' ∧ c'.currentBytes ≤ c'.capacityBytes := by
  -- every call is what it does first and the eviction behind it
  have hstep : ∀ r c', c.ready call = .ok r → c.call call = .ok c' → c' = r.evictIfNeeded →
      Follows (tr ++ c.touchEvents call) r → ∃ r c', c.ready call = .ok r ∧
        c.call call = .ok c' ∧ Consistent r ∧ c' = r.evictIfNeeded ∧
        Follows (tr ++ c.events call) c' ∧ c'.currentBytes ≤ c'.capacityBytes := by
    rintro r c' hready hcall rfl hr
    obtain ⟨hevict, hwithin⟩ := hr.evict
    refine ⟨r, _, hready, hcall, hr.consistent, rfl, ?_, hwithin⟩
    rw [events, hready, ← List.append_assoc]
    exact hevict
  -- a get and a null block do not evict, but within the capacity there is nothing to evict
  cases call with
  | get key =>
    obtain ⟨c', hget, hfollows, hcap, hbytes⟩ := h.get key
    have hready : (c.get key).map Prod.snd = .ok c' := by rw [hget]; rfl
    exact hstep c' c' hready hready (evictIfNeeded_of_le (by omega)).symm hfollows
  | put key value =>
    cases value with
    | none =>
      exact hstep c c rfl rfl (evictIfNeeded_of_le hle).symm ((List.append_nil tr).symm ▸ h)
    | some block =>
      obtain ⟨r, hinsert, hfollows, -⟩ := h.insert hfits
      exact hstep r _ hinsert (by rw [BlockCache.call, put, hinsert]; rfl) rfl hfollows
  | setCapacity bytes =>
    refine hstep { c with capacityBytes := bytes } _ rfl rfl rfl ?_
    rw [touchEvents, List.append_nil]
    exact ⟨⟨h.consistent.keys, h.consistent.ids, h.consistent.map_iff, h.consistent.below,
      h.consistent.bytes, h.consistent.total_lt⟩, h.order, h.content⟩

end Follows

/-- **The cache is a byte-bounded LRU.** In every run in which each block fits when it is
put (`hfits`: with the blocks of the other keys it stays below `2^64`), the list, the map
and the counter agree, the counter is within the capacity, the list is in the order of the
last use, and a key has the block that it was last filled with, unless it was evicted since.
And whatever is called next, the counter is right at every turn of the eviction, which drops
as few of the least recently used nodes as it can. -/
theorem blockCache_lru (calls : List Call) (hfits : cache.Along (fun _ => Fits) [] new calls) :
    ∃ c, cache.run new calls = .ok c ∧
      (c.lru.map Node.key).Nodup ∧ (c.lru.map Node.id).Nodup ∧
      (∀ k id, c.map k = some id ↔ ∃ n ∈ c.lru, n.key = k ∧ n.id = id) ∧
      c.currentBytes = total c.lru ∧ c.currentBytes ≤ c.capacityBytes ∧
      (c.lru.map Node.key).Pairwise (MoreRecent (touches (cache.trace new calls))) ∧
      (∀ k, ∃ c', c.get k = .ok ((History.last k (contents (cache.trace new calls))).join, c')) ∧
      ∀ call, c.Fits call → ∃ r c' evicted, c.ready call = .ok r ∧ c.call call = .ok c' ∧
        (∀ s ∈ evictStates r.lru.length r, s.currentBytes = total s.lru) ∧
        EvictsTo r c' evicted := by
  have hrun := cache.run_outcome (P := fun tr c => Follows tr c ∧ c.currentBytes ≤ c.capacityBytes)
    (F := fun _ => False) (fun tr c call hP hcond => ?_) ⟨follows_new, by decide⟩ hfits
  · obtain ⟨c, hc, hfollows, hle⟩ := Except.post_false_iff.mp hrun
    rw [List.nil_append] at hfollows
    refine ⟨c, hc, hfollows.consistent.keys, hfollows.consistent.ids, hfollows.consistent.map_iff,
      hfollows.consistent.bytes, hle, hfollows.order, fun k => ?_, fun call hcall => ?_⟩
    · obtain ⟨c', hget, -⟩ := hfollows.get k
      exact ⟨c', hget⟩
    · obtain ⟨r, c', hready, hstep, hr, rfl, -⟩ := hfollows.call hle hcall
      obtain ⟨hstates, -, evicted, hevicts⟩ := hr.evictIfNeeded
      exact ⟨r, _, evicted, hready, hstep, fun s hs => (hstates s hs).bytes, hevicts⟩
  · obtain ⟨hfollows, hle⟩ := hP
    obtain ⟨r, c', -, hcall, -, -, hfollows', hle'⟩ := hfollows.call hle hcond
    show (c.call call).Post _ _
    rw [hcall]
    exact ⟨hfollows', hle'⟩

/-- Room for two blocks: the one that was not used since goes. -/
theorem blockCache_lru_evicts :
    cache.Along (fun _ => Fits) [] new [.setCapacity 10, .put [1] (some [7, 7, 7, 7, 7]),
        .put [2] (some [8, 8, 8, 8, 8]), .get [1], .put [3] (some [9])] ∧
      ∃ c, cache.run new [.setCapacity 10, .put [1] (some [7, 7, 7, 7, 7]),
        .put [2] (some [8, 8, 8, 8, 8]), .get [1], .put [3] (some [9])] = .ok c ∧
      (∃ c', c.get [2] = .ok (none, c')) ∧ ∃ c', c.get [1] = .ok (some [7, 7, 7, 7, 7], c') := by
  have hfits : cache.Along (fun _ => Fits) [] new [.setCapacity 10,
      .put [1] (some [7, 7, 7, 7, 7]), .put [2] (some [8, 8, 8, 8, 8]), .get [1],
      .put [3] (some [9])] := by decide +kernel
  obtain ⟨c, hc, -, -, -, -, -, -, hget, -⟩ := blockCache_lru _ hfits
  refine ⟨hfits, c, hc, ?_, ?_⟩
  · obtain ⟨c', h2⟩ := hget [2]
    exact ⟨c', h2⟩
  · obtain ⟨c', h1⟩ := hget [1]
    exact ⟨c', h1⟩

-- ---------------------------------------------------------------------------
-- One block under many keys
-- ---------------------------------------------------------------------------

/-- An unlimited cache, and one block put under `m` keys. -/
def sharedPuts (m : Nat) (block : Bytes) : List Call :=
  .setCapacity (2 ^ 64 - 1) ::
    (List.range m).map fun i => .put (Bytes.leBytes 8 i) (some block)

/-- Different numbers below `2^64` have different bytes. -/
theorem leBytes_ne {i j : Nat} (hi : i < 2 ^ 64) (hj : j < 2 ^ 64) (h : i ≠ j) :
    Bytes.leBytes 8 i ≠ Bytes.leBytes 8 j := by
  intro heq
  have hnat := congrArg Bytes.leNat heq
  rw [Bytes.leNat_leBytes (by norm_num; exact hi), Bytes.leNat_leBytes (by norm_num; exact hj)]
    at hnat
  exact h hnat

/-- By induction on the keys: nothing is ever evicted, and the counter wraps. -/
theorem run_sharedPuts (m : Nat) (hm : m ≤ 2 ^ 64) (block : Bytes) :
    ∃ c, cache.run new (sharedPuts m block) = .ok c ∧ c.capacityBytes = 2 ^ 64 - 1 ∧
      c.currentBytes = m * block.length % 2 ^ 64 ∧ total c.lru = m * block.length ∧
      ∀ i, m ≤ i → i < 2 ^ 64 → c.map (Bytes.leBytes 8 i) = none := by
  induction m with
  | zero =>
    refine ⟨new.setCapacity (2 ^ 64 - 1), rfl, rfl, ?_, ?_, fun i _ _ => rfl⟩
    · rw [Nat.zero_mul]
      rfl
    · rw [Nat.zero_mul]
      rfl
  | succ m ih =>
    obtain ⟨c, hrun, hcap, hbytes, htotal, hmap⟩ := ih (by omega)
    set key := Bytes.leBytes 8 m with hkey
    set c' : BlockCache := { c with
      lru := ⟨c.nextId, key, block⟩ :: c.lru
      nextId := c.nextId + 1
      map := Function.update c.map key (some c.nextId)
      currentBytes := addBytes c.currentBytes block.length } with hc'
    -- a key that is new
    have hinsert : c.insert key block = .ok c' := by
      rw [insert, hmap m le_rfl (by omega)]
    -- the sum of 64 bits never passes the capacity
    have hlt : addBytes c.currentBytes block.length < 2 ^ 64 := Nat.mod_lt _ (by norm_num)
    have hkept : c'.evictIfNeeded = c' := by
      refine evictIfNeeded_of_le ?_
      show addBytes c.currentBytes block.length ≤ c.capacityBytes
      omega
    have hcall : cache.step c (.put key (some block)) = .ok c' := by
      show (c.insert key block).map evictIfNeeded = .ok c'
      rw [hinsert]
      exact congrArg Except.ok hkept
    refine ⟨c', ?_, hcap, ?_, ?_, fun i hi hlt' => ?_⟩
    · have hsplit : sharedPuts (m + 1) block = sharedPuts m block ++ [.put key (some block)] := by
        rw [sharedPuts, List.range_succ, List.map_append, List.map_singleton, sharedPuts]
        rfl
      rw [hsplit, System.run_append hrun, System.run_cons_ok hcall]
      rfl
    · show addBytes c.currentBytes block.length = _
      rw [hbytes, addBytes, Nat.mod_add_mod, Nat.succ_mul]
    · rw [hc', total_cons, htotal, Nat.succ_mul, Nat.add_comm]
    · show Function.update c.map key (some c.nextId) _ = none
      rw [Function.update_of_ne (leBytes_ne hlt' (by omega) (by omega))]
      exact hmap i (by omega) hlt'

/-- **The counter wraps**: a block of 4 GiB under 2^32 keys counts as nothing. -/
theorem counter_wraps :
    ∃ c, cache.run new (sharedPuts (2 ^ 32) (List.replicate (2 ^ 32) 0)) = .ok c ∧
      c.currentBytes = 0 ∧ total c.lru = 2 ^ 64 := by
  obtain ⟨c, hrun, -, hbytes, htotal, -⟩ :=
    run_sharedPuts (2 ^ 32) (by norm_num) (List.replicate (2 ^ 32) 0)
  rw [List.length_replicate] at hbytes htotal
  exact ⟨c, hrun, hbytes.trans (by norm_num), htotal.trans (by norm_num)⟩

end BlockCache

end Zenith
