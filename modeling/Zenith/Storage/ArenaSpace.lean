import Zenith.Storage.Arena

/-!
# Zenith — the space an arena takes

How `MemoryUsage`, by which `ZenithDB` decides when a memtable is full, compares with what
was requested. An arena loses what is left of a block that is too short for a request, and
the slop in front of aligned regions. A block is only given up for a request of at most a
quarter of a block, so three quarters of it are in use, up to the slop; a larger request
gets a block of exactly its size.

The usage can therefore not be far above what was requested, and a memtable is not frozen
much too early; and it is never below, so one is not frozen too late. `Account` keeps both
sides of this as an invariant of one request. What is taken from the current block pays for
it when it is given up: at the rate of one and a half bytes for one, three quarters of a
block pay for all of it.

Main result: `usage_bounds` — the usage is at least what was handed out, and at most one and
a half times that, slop included, and a block.
-/

namespace Zenith.Arena

/-- The slop that there may be in front of a request. -/
def Request.slack : Request → Nat
  | .allocate _ => 0
  | .allocateAligned _ => align - 1

/-- What a request takes at most. -/
def Request.cost (req : Request) : Nat := req.bytes + req.slack

/-- The bytes that were handed out. -/
def granted (grants : List Grant) : Nat := (grants.map fun g => g.request.bytes).sum

/-- What the requests take at most. -/
def costs (grants : List Grant) : Nat := (grants.map fun g => g.request.cost).sum

/-- The blocks, each with the pointer to it. -/
def blockBytes (a : Arena) : Nat := (a.blocks.map fun b => b.size + align).sum

section

variable {alloc : Allocator} {a a' : Arena} {grants : List Grant} {req : Request} {p : Nat}

/-- One more grant. -/
theorem granted_concat (grants : List Grant) (g : Grant) :
    granted (grants ++ [g]) = granted grants + g.request.bytes := by
  simp [granted]

/-- One more grant, with the slop it may need. -/
theorem costs_concat (grants : List Grant) (g : Grant) :
    costs (grants ++ [g]) = costs grants + g.request.cost := by
  simp [costs]

/-- What a request does: it cuts a region off the front of the current block, or it gets
a block of its own, or the current block is given up for a new one. -/
inductive Served (a : Arena) (req : Request) (a' : Arena) : Prop
  | cut (skip : Nat) (hskip : skip ≤ req.slack)
      (hfits : req.bytes + skip ≤ a.allocBytesRemaining)
      (hrest : a'.allocBytesRemaining = a.allocBytesRemaining - (req.bytes + skip))
      (hblocks : a'.blocks = a.blocks)
  | own (hlarge : kBlockSize / 4 < req.bytes)
      (hrest : a'.allocBytesRemaining = a.allocBytesRemaining)
      (hblocks : ∃ q, a'.blocks = a.blocks ++ [⟨q, req.bytes⟩])
  | fresh (hsmall : req.bytes ≤ kBlockSize / 4)
      (hfull : a.allocBytesRemaining < req.cost)
      (hrest : a'.allocBytesRemaining = kBlockSize - req.bytes)
      (hblocks : ∃ q, a'.blocks = a.blocks ++ [⟨q, kBlockSize⟩])

/-- A block of its own for a large request, else a new current one. -/
theorem served_fallback (hfull : a.allocBytesRemaining < req.cost)
    (h : allocateFallback alloc a req.bytes = some (p, a')) : Served a req a' := by
  unfold allocateFallback at h
  split at h
  · next hlarge =>
    obtain ⟨q, -, heq⟩ := Option.bind_eq_some_iff.mp h
    obtain ⟨rfl, rfl⟩ := Prod.mk.inj (Option.some.inj heq)
    exact .own hlarge rfl ⟨q, rfl⟩
  · next hsmall =>
    obtain ⟨⟨q, a₁⟩, hnew, heq⟩ := Option.bind_eq_some_iff.mp h
    obtain ⟨rfl, rfl⟩ := Prod.mk.inj (Option.some.inj heq)
    obtain ⟨r, -, heq⟩ := Option.bind_eq_some_iff.mp hnew
    obtain ⟨rfl, rfl⟩ := Prod.mk.inj (Option.some.inj heq)
    exact .fresh (not_lt.mp hsmall) hfull rfl ⟨r, rfl⟩

/-- **What a request does**, of the three. -/
theorem handle_cases (hsize : req.bytes < 2 ^ 63) (h : handle alloc a req = some (p, a')) :
    Served a req a' := by
  -- an aligned request needs room for the slop as well
  cases req with
  | allocate n =>
    simp only [handle, allocate] at h
    split at h
    · next hfits =>
      obtain ⟨-, rfl⟩ := Prod.mk.inj (Option.some.inj h)
      exact .cut 0 le_rfl hfits rfl rfl
    · next hfull =>
      have hcost : a.allocBytesRemaining < (Request.allocate n).cost := not_le.mp hfull
      exact served_fallback hcost h
  | allocateAligned n =>
    have hslop := slop_lt a.allocPtr
    have hneeded : (n + slop a.allocPtr) % 2 ^ 64 = n + slop a.allocPtr := by
      simp only [Request.bytes, align] at hsize hslop
      exact Nat.mod_eq_of_lt (by omega)
    simp only [handle, allocateAligned, hneeded] at h
    split at h
    · next hfits =>
      obtain ⟨-, rfl⟩ := Prod.mk.inj (Option.some.inj h)
      exact .cut (slop a.allocPtr) (Nat.le_sub_one_of_lt hslop) hfits rfl rfl
    · next hfull =>
      -- what remains is too short for the request with the most slop it can need
      have hcost : a.allocBytesRemaining < (Request.allocateAligned n).cost := by
        simp only [Request.cost, Request.bytes, Request.slack]
        omega
      exact served_fallback hcost h

-- ---------------------------------------------------------------------------
-- The account of an arena
-- ---------------------------------------------------------------------------

/-- What was handed out and is free fits into the blocks; and the blocks given up are
paid for by one and a half times what was taken from them, so that only the current
block, of which `kBlockSize - allocBytesRemaining` bytes are taken, may be owed. -/
structure Account (a : Arena) (grants : List Grant) : Prop where
  covered : granted grants + a.allocBytesRemaining + align * a.blocks.length ≤ a.blockBytes
  remaining_le : a.allocBytesRemaining ≤ kBlockSize
  paid : (a.allocBytesRemaining = 0 ∧ 2 * a.blockBytes ≤ 3 * costs grants) ∨
    2 * a.blockBytes + 3 * (kBlockSize - a.allocBytesRemaining) ≤
      3 * costs grants + 2 * (kBlockSize + align)

/-- An empty arena owes nothing. -/
theorem account_new : Account new [] := ⟨le_rfl, Nat.zero_le _, .inl ⟨rfl, le_rfl⟩⟩

/-- One more block. -/
theorem blockBytes_concat {b : Region} (h : a'.blocks = a.blocks ++ [b]) :
    a'.blockBytes = a.blockBytes + (b.size + align) ∧
      a'.blocks.length = a.blocks.length + 1 := by
  simp [blockBytes, h]

/-- **One request** keeps the account. -/
theorem Account.handle (h : Account a grants) (hpos : 0 < req.bytes) (hsize : req.bytes < 2 ^ 63)
    (hserve : handle alloc a req = some (p, a')) : Account a' (grants ++ [⟨req, p⟩]) := by
  obtain ⟨hcovered, hremaining, hpaid⟩ := h
  have hcost : req.cost = req.bytes + req.slack := rfl
  have hslack : req.slack ≤ 7 := by cases req <;> simp [Request.slack, align]
  have hcosts := costs_concat grants ⟨req, p⟩
  have hgranted := granted_concat grants ⟨req, p⟩
  simp only [kBlockSize, align] at *
  -- cut off the current block, with a block of its own, or from a new block
  rcases handle_cases hsize hserve with ⟨skip, hskip, hfits, hrest, hblocks⟩ |
    ⟨hlarge, hrest, q, hblocks⟩ | ⟨hsmall, hfull, hrest, q, hblocks⟩
  · have hbytes : a'.blockBytes = a.blockBytes := by rw [blockBytes, hblocks]; rfl
    refine ⟨?_, ?_, .inr ?_⟩ <;> rw [hrest] <;> simp only [hbytes, hblocks, kBlockSize, align] <;>
      omega
  · obtain ⟨hbytes, hlen⟩ := blockBytes_concat hblocks
    simp only [kBlockSize, align] at *
    refine ⟨?_, ?_, hpaid.imp (fun hp => ⟨?_, ?_⟩) fun hp => ?_⟩ <;>
      simp only [hrest, hbytes, hlen, kBlockSize, align] <;> omega
  · obtain ⟨hbytes, hlen⟩ := blockBytes_concat hblocks
    simp only [kBlockSize, align] at *
    refine ⟨?_, ?_, .inr ?_⟩ <;> simp only [hrest, hbytes, hlen, kBlockSize, align] <;> omega

/-- **All requests**, by induction from the last one. -/
theorem account_serveAll {calls : List (Allocator × Request)}
    (hcalls : ∀ c ∈ calls, 0 < c.2.bytes ∧ c.2.bytes < 2 ^ 63) :
    Account (serveAll calls).1 (serveAll calls).2 := by
  induction calls using List.reverseRecOn with
  | nil => exact account_new
  | append_singleton calls c ih =>
    have hprev := ih fun c hc => hcalls c (List.mem_append_left _ hc)
    obtain ⟨hpos, hsize⟩ := hcalls c (by simp)
    rw [serveAll, List.foldl_append]
    show Account (serve (serveAll calls) c).1 (serve (serveAll calls) c).2
    unfold serve
    cases hserve : Arena.handle c.1 (serveAll calls).1 c.2 with
    | none => exact hprev
    | some st => exact hprev.handle hpos hsize hserve

/-- What an account says about the usage. -/
theorem Account.usage (h : Account a grants) (hlaid : Laid a grants) :
    granted grants + align * a.blocks.length ≤ a.memoryUsage ∧
      2 * a.memoryUsage ≤ 3 * costs grants + 2 * (kBlockSize + align) := by
  have husage : a.memoryUsage = a.blockBytes := hlaid.usage
  obtain ⟨hcovered, -, hpaid⟩ := h
  rw [husage]
  refine ⟨by omega, ?_⟩
  rcases hpaid with ⟨-, hpaid⟩ | hpaid <;> omega

end

/-- **The space of an arena**: after any requests, some of which may have thrown, the usage
is what was handed out and the block pointers at least, and at most one and a half times the
requests, each with the slop it may need, and one block.

Each call has an allocator of its own that keeps what `new char[]` promises (`halloc`), and
asks for at least one byte and less than `2 ^ 63` (`hcalls`). Their order and number are
free. What was asked for in a call that threw is not counted on either side. -/
theorem usage_bounds (calls : List (Allocator × Request)) (halloc : ∀ c ∈ calls, Allocates c.1)
    (hcalls : ∀ c ∈ calls, 0 < c.2.bytes ∧ c.2.bytes < 2 ^ 63) :
    granted (serveAll calls).2 + 8 * (serveAll calls).1.blocks.length ≤
        (serveAll calls).1.memoryUsage ∧
      2 * (serveAll calls).1.memoryUsage ≤ 3 * costs (serveAll calls).2 + 2 * (4096 + 8) :=
  (account_serveAll hcalls).usage (laid_serveAll halloc hcalls)

/-- Five requests of which each takes a block of its own or leaves most of one. -/
def wastefulCalls : List (Allocator × Request) :=
  [.allocate 1024, .allocate 1024, .allocate 1024, .allocate 1000, .allocateAligned 1024].map
    fun req => (allocAbove, req)

theorem usage_bounds_wasteful :
    (serveAll wastefulCalls).1.memoryUsage = 2 * 4104 ∧
      2 * (serveAll wastefulCalls).1.memoryUsage ≤
        3 * costs (serveAll wastefulCalls).2 + 2 * (4096 + 8) := by
  have halloc : ∀ c ∈ wastefulCalls, Allocates c.1 := by
    simp [wastefulCalls, allocates_allocAbove]
  exact ⟨by decide, (usage_bounds wastefulCalls halloc (by decide)).2⟩

end Zenith.Arena
