import Zenith.Lib.Regions

/-!
# Zenith — the arena

The memory pool of `arena.h` that the memtable's nodes and strings live in: requests are cut
off the front of the current block, a request of more than a quarter of a block gets one of
its own, and what is left of a block that is too short is abandoned.

The arena hands out addresses and never looks at memory, so the model keeps the addresses
only. `new char[]` is a parameter: an address, given the blocks there are, or nothing when
it throws. Each request has one of its own, so a request that throws and is made again may
be served. `Allocates` is what the code relies on.

Sums of sizes wrap in 64 bits where the code computes them in `size_t`. That they do not
wrap is proved, from the blocks being apart in the lower half of the address space: memory
that does not exist cannot be counted. The only bound on a request is that it is not zero,
which `Allocate` asserts, and below half of the address space.

`Laid` is the layout as an invariant. It keeps a list of all grants, which the code does
not, and says of each that it lies in a block and is apart from all others and from what is
free. A request that throws in the middle leaves the arena as it was, so the list of grants
is that of the requests that returned.

Main result: `serveAll_laidOut`, by `Laid` — after any requests the regions handed out lie
in blocks, apart from each other and from what is still free.
-/

namespace Zenith

/-- The fields of the arena. -/
structure Arena where
  allocPtr : Nat
  allocBytesRemaining : Nat
  /-- with the sizes they were allocated with, which the arena does not keep -/
  blocks : List Region
  memoryUsage : Nat
  deriving DecidableEq

namespace Arena

/-- The size of a block. -/
def kBlockSize : Nat := 4096

/-- The alignment, and the size of a pointer. -/
def align : Nat := 8

/-- An arena without blocks. -/
def new : Arena := ⟨0, 0, [], 0⟩

/-- `new char[]`, given the blocks that were allocated before. -/
abbrev Allocator := List Region → Nat → Option Nat

section

variable (alloc : Allocator)

/-- `AllocateNewBlock`. The usage counts the pointer to the block as well. -/
def allocateNewBlock (a : Arena) (blockBytes : Nat) : Option (Nat × Arena) := do
  let result ← alloc a.blocks blockBytes
  return (result, { a with
    blocks := a.blocks ++ [⟨result, blockBytes⟩]
    memoryUsage := (a.memoryUsage + (blockBytes + align)) % 2 ^ 64 })

/-- `AllocateFallback`: the current block is too short. -/
def allocateFallback (a : Arena) (bytes : Nat) : Option (Nat × Arena) :=
  if bytes > kBlockSize / 4 then
    -- a block of its own; the current one stays in use
    allocateNewBlock alloc a bytes
  else do
    let (result, a) ← allocateNewBlock alloc a kBlockSize
    return (result, { a with
      allocPtr := result + bytes, allocBytesRemaining := kBlockSize - bytes })

/-- `Allocate`: a region at the front of the current block, if it is there. -/
def allocate (a : Arena) (bytes : Nat) : Option (Nat × Arena) :=
  if bytes ≤ a.allocBytesRemaining then
    some (a.allocPtr, { a with
      allocPtr := a.allocPtr + bytes, allocBytesRemaining := a.allocBytesRemaining - bytes })
  else allocateFallback alloc a bytes

/-- What is skipped in front of an aligned request. -/
def slop (ptr : Nat) : Nat := if ptr % align = 0 then 0 else align - ptr % align

/-- `AllocateAligned`: the same behind some slop. -/
def allocateAligned (a : Arena) (bytes : Nat) : Option (Nat × Arena) :=
  let needed := (bytes + slop a.allocPtr) % 2 ^ 64
  if needed ≤ a.allocBytesRemaining then
    some (a.allocPtr + slop a.allocPtr, { a with
      allocPtr := a.allocPtr + needed, allocBytesRemaining := a.allocBytesRemaining - needed })
  else allocateFallback alloc a bytes

-- ---------------------------------------------------------------------------
-- Requests
-- ---------------------------------------------------------------------------

/-- What is asked of an arena. -/
inductive Request
  | allocate (bytes : Nat)
  | allocateAligned (bytes : Nat)
  deriving DecidableEq

/-- How many bytes. -/
def Request.bytes : Request → Nat
  | .allocate n => n
  | .allocateAligned n => n

/-- A request that returned an address. -/
structure Grant where
  request : Request
  addr : Nat
  deriving DecidableEq

/-- The region that was handed out. -/
def Grant.region (g : Grant) : Region := ⟨g.addr, g.request.bytes⟩

/-- The answer to a request. -/
def handle (a : Arena) : Request → Option (Nat × Arena)
  | .allocate n => allocate alloc a n
  | .allocateAligned n => allocateAligned alloc a n

end

/-- One request, with what its allocation returns; one that throws leaves everything as
it is. -/
def serve (st : Arena × List Grant) (call : Allocator × Request) : Arena × List Grant :=
  match handle call.1 st.1 call.2 with
  | some (p, a) => (a, st.2 ++ [⟨call.2, p⟩])
  | none => st

/-- The requests in order, from an empty arena. -/
def serveAll (calls : List (Allocator × Request)) : Arena × List Grant :=
  calls.foldl serve (new, [])

/-- What the arena relies on: a block is not null, a multiple of 8, in the lower half of
the address space, and apart from all others. -/
structure Allocates (alloc : Allocator) : Prop where
  pos : ∀ bs n p, alloc bs n = some p → 0 < p
  aligned : ∀ bs n p, alloc bs n = some p → align ∣ p
  fits : ∀ bs n p, alloc bs n = some p → p + n ≤ 2 ^ 63
  fresh : ∀ bs n p, alloc bs n = some p → ∀ b ∈ bs, b.Apart ⟨p, n⟩

-- ---------------------------------------------------------------------------
-- The layout
-- ---------------------------------------------------------------------------

/-- What is free in the current block. -/
def free (a : Arena) : Region := ⟨a.allocPtr, a.allocBytesRemaining⟩

/-- The free part is an unused suffix of one block, or nothing. -/
def FreeSuffix (a : Arena) (grants : List Grant) : Prop :=
  a.free = ⟨0, 0⟩ ∨ ∃ b ∈ a.blocks, b.addr ≤ a.allocPtr ∧ a.free.stop = b.stop ∧
    ∀ g ∈ grants, g.region.Apart a.free

/-- The layout after some requests were granted. -/
structure Laid (a : Arena) (grants : List Grant) : Prop where
  block : ∀ b ∈ a.blocks, 0 < b.addr ∧ align ∣ b.addr ∧ 0 < b.size ∧ b.stop ≤ 2 ^ 63
  blocks_apart : a.blocks.Pairwise Region.Apart
  within : ∀ g ∈ grants, ∃ b ∈ a.blocks, g.region.Within b
  apart : (grants.map Grant.region).Pairwise Region.Apart
  aligned : ∀ g ∈ grants, ∀ n, g.request = .allocateAligned n → align ∣ g.addr
  free : a.FreeSuffix grants
  usage : a.memoryUsage = (a.blocks.map fun b => b.size + align).sum

/-- Nothing was handed out yet. -/
theorem laid_new : Laid new [] :=
  ⟨fun _ hb => absurd hb List.not_mem_nil, List.Pairwise.nil, fun _ hg => absurd hg List.not_mem_nil,
    List.Pairwise.nil, fun _ hg => absurd hg List.not_mem_nil, .inl rfl, rfl⟩

/-- **Memory is counted without overflow**: aligned blocks that are apart in half of the
address space leave room for a pointer each. -/
theorem usage_lt {blocks : List Region}
    (hblock : ∀ b ∈ blocks, 0 < b.addr ∧ align ∣ b.addr ∧ 0 < b.size ∧ b.stop ≤ 2 ^ 63)
    (hapart : blocks.Pairwise Region.Apart) :
    (blocks.map fun b => b.size + align).sum < 2 ^ 64 := by
  -- the blocks and the pointers to them fit the address space separately
  have hsizes : (blocks.map Region.size).sum ≤ 2 ^ 63 - 8 := by
    refine Region.sum_size_le hapart fun b hb => ?_
    obtain ⟨hpos, ⟨k, hk⟩, -, hstop⟩ := hblock b hb
    rw [align] at hk
    exact ⟨by omega, hstop⟩
  -- the first 8 bytes at the address of each block are apart, too
  have hheads : ((blocks.map fun b => (⟨b.addr, align⟩ : Region)).map Region.size).sum ≤
      2 ^ 63 - 8 := by
    refine Region.sum_size_le (List.pairwise_map.mpr ?_) fun r hr => ?_
    · refine hapart.imp_of_mem fun {b c} hb hc hbc => ?_
      obtain ⟨-, ⟨k, hk⟩, hbsize, -⟩ := hblock b hb
      obtain ⟨-, ⟨l, hl⟩, hcsize, -⟩ := hblock c hc
      rw [align] at hk hl
      unfold Region.Apart Region.stop at hbc ⊢
      simp only [align]
      omega
    · obtain ⟨b, hb, rfl⟩ := List.mem_map.mp hr
      obtain ⟨hpos, ⟨k, hk⟩, hsize, hstop⟩ := hblock b hb
      rw [align] at hk
      simp only [Region.stop, align] at hstop ⊢
      omega
  have hsum : (blocks.map fun b => b.size + align).sum = (blocks.map Region.size).sum +
      ((blocks.map fun b => (⟨b.addr, align⟩ : Region)).map Region.size).sum := by
    rw [List.map_map, ← List.sum_map_add]
    rfl
  omega

namespace Laid

variable {alloc : Allocator} {a a' : Arena} {grants : List Grant}

/-- A new block is apart from all that was handed out before. -/
theorem newBlock (h : Laid a grants) (halloc : Allocates alloc) {n p : Nat} (hn : 0 < n)
    (hnew : allocateNewBlock alloc a n = some (p, a')) :
    Laid a' grants ∧ a'.free = a.free ∧ (⟨p, n⟩ : Region) ∈ a'.blocks ∧ align ∣ p ∧
      (∀ g ∈ grants, g.region.Apart ⟨p, n⟩) ∧ (a.free = ⟨0, 0⟩ ∨ a.free.Apart ⟨p, n⟩) := by
  obtain ⟨q, hq, heq⟩ := Option.bind_eq_some_iff.mp hnew
  obtain ⟨rfl, rfl⟩ := Prod.mk.inj (Option.some.inj heq)
  have hfresh := halloc.fresh _ _ _ hq
  have hblock : ∀ b ∈ a.blocks ++ [⟨q, n⟩],
      0 < b.addr ∧ align ∣ b.addr ∧ 0 < b.size ∧ b.stop ≤ 2 ^ 63 := by
    intro b hb
    rcases List.mem_append.mp hb with hb | hb
    · exact h.block b hb
    · obtain rfl := List.mem_singleton.mp hb
      exact ⟨halloc.pos _ _ _ hq, halloc.aligned _ _ _ hq, hn, halloc.fits _ _ _ hq⟩
  have hapart : (a.blocks ++ [(⟨q, n⟩ : Region)]).Pairwise Region.Apart := by
    refine List.pairwise_append.mpr ⟨h.blocks_apart, List.pairwise_singleton _ _, ?_⟩
    intro b hb c hc
    obtain rfl := List.mem_singleton.mp hc
    exact hfresh b hb
  -- a grant lies in an old block, and the new one is apart from these
  have hgrants : ∀ g ∈ grants, g.region.Apart ⟨q, n⟩ := fun g hg => by
    obtain ⟨b, hb, hwithin⟩ := h.within g hg
    exact (hfresh b hb).mono hwithin (Region.Within.refl _)
  refine ⟨⟨hblock, hapart, fun g hg => ?_, h.apart, h.aligned, ?_, ?_⟩, rfl, by simp,
    halloc.aligned _ _ _ hq, hgrants, ?_⟩
  · obtain ⟨b, hb, hwithin⟩ := h.within g hg
    exact ⟨b, List.mem_append_left _ hb, hwithin⟩
  · refine h.free.imp id fun hsuffix => ?_
    obtain ⟨b, hb, hrest⟩ := hsuffix
    exact ⟨b, List.mem_append_left _ hb, hrest⟩
  · -- disjoint blocks below `2 ^ 63`: the counter does not wrap
    have hlt := usage_lt hblock hapart
    rw [List.map_append, List.sum_append, ← h.usage] at hlt ⊢
    exact Nat.mod_eq_of_lt hlt
  · refine h.free.imp id fun hsuffix => ?_
    obtain ⟨b, hb, hlo, hstop, -⟩ := hsuffix
    exact (hfresh b hb).mono ⟨hlo, hstop.le⟩ (Region.Within.refl _)

/-- A grant apart from the others, and from what stays free. -/
theorem grant (h : Laid a grants) {g : Grant} (hwithin : ∃ b ∈ a.blocks, g.region.Within b)
    (hapart : ∀ g' ∈ grants, g'.region.Apart g.region)
    (haligned : ∀ n, g.request = .allocateAligned n → align ∣ g.addr)
    (hfree : a.free = ⟨0, 0⟩ ∨ g.region.Apart a.free) : Laid a (grants ++ [g]) := by
  refine ⟨h.block, h.blocks_apart, fun g' hg' => ?_, ?_, fun g' hg' => ?_, ?_, h.usage⟩
  · rcases List.mem_append.mp hg' with hg' | hg'
    · exact h.within g' hg'
    · exact List.mem_singleton.mp hg' ▸ hwithin
  -- one region more, apart from all before
  · rw [List.map_append, List.map_singleton]
    refine List.pairwise_append.mpr ⟨h.apart, List.pairwise_singleton _ _, ?_⟩
    intro r hr q hq
    obtain ⟨g', hg', rfl⟩ := List.mem_map.mp hr
    obtain rfl := List.mem_singleton.mp hq
    exact hapart g' hg'
  · rcases List.mem_append.mp hg' with hg' | hg'
    · exact h.aligned g' hg'
    · exact List.mem_singleton.mp hg' ▸ haligned
  · rcases h.free with hnone | ⟨b, hb, hlo, hstop, hunused⟩
    · exact .inl hnone
    -- what is free now was free before, and the grant is not in it
    · rcases hfree with hnone | hg
      · exact .inl hnone
      · refine .inr ⟨b, hb, hlo, hstop, fun g' hg' => ?_⟩
        rcases List.mem_append.mp hg' with hg' | hg'
        · exact hunused g' hg'
        · exact List.mem_singleton.mp hg' ▸ hg

/-- **Cutting off the front** of the current block, behind `skip` bytes. -/
theorem bump (h : Laid a grants) (req : Request) (skip : Nat) (hpos : 0 < req.bytes)
    (hfits : req.bytes + skip ≤ a.allocBytesRemaining)
    (haligned : ∀ n, req = .allocateAligned n → align ∣ a.allocPtr + skip) :
    Laid { a with
        allocPtr := a.allocPtr + (req.bytes + skip)
        allocBytesRemaining := a.allocBytesRemaining - (req.bytes + skip) }
      (grants ++ [⟨req, a.allocPtr + skip⟩]) := by
  rcases h.free with hnone | ⟨b, hb, hlo, hstop, hunused⟩
  · have hzero : a.allocBytesRemaining = 0 := congrArg Region.size hnone
    omega
  simp only [Arena.free, Region.stop] at hstop
  -- both the grant and the rest are parts of what was free
  have hgrant : (⟨a.allocPtr + skip, req.bytes⟩ : Region).Within a.free := by
    simp only [Region.Within, Region.stop, Arena.free]
    omega
  have hrest : (⟨a.allocPtr + (req.bytes + skip),
      a.allocBytesRemaining - (req.bytes + skip)⟩ : Region).Within a.free := by
    simp only [Region.Within, Region.stop, Arena.free]
    omega
  have hcut : Laid { a with
      allocPtr := a.allocPtr + (req.bytes + skip)
      allocBytesRemaining := a.allocBytesRemaining - (req.bytes + skip) } grants := by
    refine ⟨h.block, h.blocks_apart, h.within, h.apart, h.aligned, .inr ⟨b, hb, ?_, ?_, ?_⟩,
      h.usage⟩
    · exact hlo.trans (Nat.le_add_right _ _)
    · simp only [Arena.free, Region.stop]
      omega
    · exact fun g hg => (hunused g hg).mono (Region.Within.refl _) hrest
  refine hcut.grant ⟨b, hb, ?_⟩ (fun g hg => ?_) haligned (.inr ?_)
  · simp only [Region.Within, Region.stop, Grant.region]
    omega
  · exact (hunused g hg).mono (Region.Within.refl _) hgrant
  · simp only [Region.Apart, Region.stop, Grant.region, Arena.free]
    omega

/-- **The fallback**: a block of its own, or a new current block. -/
theorem fallback (h : Laid a grants) (halloc : Allocates alloc) (req : Request) {p : Nat}
    (hpos : 0 < req.bytes) (hserve : allocateFallback alloc a req.bytes = some (p, a')) :
    Laid a' (grants ++ [⟨req, p⟩]) := by
  unfold allocateFallback at hserve
  split at hserve
  · obtain ⟨hlaid, hsame, hmem, halign, hapart, hfree⟩ := h.newBlock halloc hpos hserve
    refine hlaid.grant ⟨_, hmem, Region.Within.refl _⟩ hapart (fun _ _ => halign) ?_
    rw [hsame]
    exact hfree.imp id Region.Apart.symm
  · next hsmall =>
    obtain ⟨⟨q, a₁⟩, hnew, heq⟩ := Option.bind_eq_some_iff.mp hserve
    obtain ⟨rfl, rfl⟩ := Prod.mk.inj (Option.some.inj heq)
    obtain ⟨hlaid, -, hmem, halign, hapart, -⟩ := h.newBlock halloc (by decide) hnew
    have hcurrent : Laid { a₁ with allocPtr := q, allocBytesRemaining := kBlockSize } grants :=
      ⟨hlaid.block, hlaid.blocks_apart, hlaid.within, hlaid.apart, hlaid.aligned,
        .inr ⟨_, hmem, le_rfl, rfl, hapart⟩, hlaid.usage⟩
    have hfits : req.bytes + 0 ≤ kBlockSize := by
      simp only [kBlockSize] at hsmall ⊢
      omega
    exact hcurrent.bump req 0 hpos hfits fun _ _ => halign

end Laid

/-- The room in front of an aligned address. -/
theorem align_dvd_slop (ptr : Nat) : align ∣ ptr + slop ptr := by
  unfold slop align
  split <;> omega

/-- The slop is less than the alignment. -/
theorem slop_lt (ptr : Nat) : slop ptr < align := by
  unfold slop align
  split <;> omega

section

variable {alloc : Allocator} {a a' : Arena} {grants : List Grant}

/-- **One request.** -/
theorem Laid.handle (h : Laid a grants) (halloc : Allocates alloc) {req : Request} {p : Nat}
    (hpos : 0 < req.bytes) (hsize : req.bytes < 2 ^ 63)
    (hserve : handle alloc a req = some (p, a')) : Laid a' (grants ++ [⟨req, p⟩]) := by
  -- with or without an address to be aligned, a region of the block or the fallback
  cases req with
  | allocate n =>
    simp only [Arena.handle, Arena.allocate] at hserve
    split at hserve
    · next hfits =>
      obtain ⟨rfl, rfl⟩ := Prod.mk.inj (Option.some.inj hserve)
      exact h.bump (.allocate n) 0 hpos hfits fun m hm => Request.noConfusion hm
    · exact h.fallback halloc (.allocate n) hpos hserve
  | allocateAligned n =>
    have hslop := slop_lt a.allocPtr
    have hneeded : (n + slop a.allocPtr) % 2 ^ 64 = n + slop a.allocPtr := by
      simp only [Request.bytes, align] at hsize hslop
      exact Nat.mod_eq_of_lt (by omega)
    simp only [Arena.handle, Arena.allocateAligned, hneeded] at hserve
    split at hserve
    · next hfits =>
      obtain ⟨rfl, rfl⟩ := Prod.mk.inj (Option.some.inj hserve)
      exact h.bump (.allocateAligned n) (slop a.allocPtr) hpos hfits
        fun _ _ => align_dvd_slop a.allocPtr
    · exact h.fallback halloc (.allocateAligned n) hpos hserve

/-- **All requests**, by induction from the last one. -/
theorem laid_serveAll {calls : List (Allocator × Request)} (halloc : ∀ c ∈ calls, Allocates c.1)
    (hcalls : ∀ c ∈ calls, 0 < c.2.bytes ∧ c.2.bytes < 2 ^ 63) :
    Laid (serveAll calls).1 (serveAll calls).2 := by
  induction calls using List.reverseRecOn with
  | nil => exact laid_new
  | append_singleton calls c ih =>
    have hprev := ih (fun c hc => halloc c (List.mem_append_left _ hc))
      fun c hc => hcalls c (List.mem_append_left _ hc)
    obtain ⟨hpos, hsize⟩ := hcalls c (by simp)
    rw [serveAll, List.foldl_append]
    show Laid (serve (serveAll calls) c).1 (serve (serveAll calls) c).2
    unfold serve
    cases hserve : Arena.handle c.1 (serveAll calls).1 c.2 with
    | none => exact hprev
    | some st => exact hprev.handle (halloc c (by simp)) hpos hsize hserve

end

/-- **The regions of an arena**: whatever was requested, each region lies in one block,
apart from every other and from what is free; aligned requests got aligned addresses; the
free part is a suffix of a block; and the memory of all blocks is counted. Requests may
throw in between, and the arena goes on as if these had not been made.

Hypotheses:
* `halloc` — each call has its own allocator, which keeps what `new char[]` promises: blocks
  of the size that was asked for, in the lower half of the address space, apart from those
  there are, and aligned;
* `hcalls` — each asks for at least one byte, which the source asserts, and for less than `2
  ^ 63`. -/
theorem serveAll_laidOut (calls : List (Allocator × Request))
    (halloc : ∀ c ∈ calls, Allocates c.1)
    (hcalls : ∀ c ∈ calls, 0 < c.2.bytes ∧ c.2.bytes < 2 ^ 63) :
    (∀ g ∈ (serveAll calls).2, ∃ b ∈ (serveAll calls).1.blocks, g.region.Within b) ∧
      ((serveAll calls).2.map Grant.region).Pairwise Region.Apart ∧
      (∀ g ∈ (serveAll calls).2, ∀ n, g.request = .allocateAligned n → 8 ∣ g.addr) ∧
      (serveAll calls).1.FreeSuffix (serveAll calls).2 ∧
      (serveAll calls).1.memoryUsage = ((serveAll calls).1.blocks.map fun b => b.size + 8).sum := by
  have h := laid_serveAll halloc hcalls
  exact ⟨h.within, h.apart, h.aligned, h.free, h.usage⟩

/-- An allocator that goes through the address space: the first aligned address above
all blocks. -/
def allocAbove : Allocator := fun blocks n =>
  let p := align * (blocks.foldr (fun b m => max b.stop m) 0 / align + 1)
  if p + n ≤ 2 ^ 63 then some p else none

/-- It is such an allocator. -/
theorem allocates_allocAbove : Allocates allocAbove := by
  -- it begins at the multiple of 8 behind all blocks
  have hsome : ∀ {bs n p}, allocAbove bs n = some p →
      p = align * (bs.foldr (fun b m => max b.stop m) 0 / align + 1) ∧ p + n ≤ 2 ^ 63 := by
    intro bs n p hp
    simp only [allocAbove] at hp
    split at hp
    · next hfits => exact ⟨(Option.some.inj hp).symm, Option.some.inj hp ▸ hfits⟩
    · exact absurd hp (by simp)
  refine ⟨fun bs n p hp => ?_, fun bs n p hp => ?_, fun bs n p hp => (hsome hp).2,
    fun bs n p hp b hb => .inl ?_⟩
  · obtain ⟨rfl, -⟩ := hsome hp
    exact Nat.mul_pos (by decide) (Nat.succ_pos _)
  · obtain ⟨rfl, -⟩ := hsome hp
    exact Nat.dvd_mul_right _ _
  · obtain ⟨rfl, -⟩ := hsome hp
    have hmax : b.stop ≤ bs.foldr (fun b m => max b.stop m) 0 := by
      clear hp
      induction bs with
      | nil => exact absurd hb List.not_mem_nil
      | cons c bs ih =>
        rcases List.mem_cons.mp hb with rfl | hb
        · exact le_max_left _ _
        · exact (ih hb).trans (le_max_right _ _)
    simp only [align]
    omega

/-- `new char[]` when it throws. -/
def allocNone : Allocator := fun _ _ => none

/-- An allocator that never returns promises everything. -/
theorem allocates_allocNone : Allocates allocNone :=
  ⟨fun _ _ _ h => absurd h (by simp [allocNone]), fun _ _ _ h => absurd h (by simp [allocNone]),
    fun _ _ _ h => absurd h (by simp [allocNone]), fun _ _ _ h => absurd h (by simp [allocNone])⟩

/-- A string, a node behind some slop, a large string that gets a block of its own when it
is asked for again, and a node in the first block. -/
def mixedCalls : List (Allocator × Request) :=
  [(allocAbove, .allocate 5), (allocAbove, .allocateAligned 40), (allocNone, .allocate 5000),
    (allocAbove, .allocate 5000), (allocNone, .allocateAligned 32)]

/-- Four of the five calls return. -/
theorem serveAll_laidOut_mixed :
    (serveAll mixedCalls).2.map Grant.addr = [8, 16, 4112, 56] ∧
      ((serveAll mixedCalls).2.map Grant.region).Pairwise Region.Apart := by
  have halloc : ∀ c ∈ mixedCalls, Allocates c.1 := by
    simp [mixedCalls, allocates_allocAbove, allocates_allocNone]
  exact ⟨by decide, (serveAll_laidOut mixedCalls halloc (by decide)).2.1⟩

end Arena

end Zenith
