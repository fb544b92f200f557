import Zenith.DB.StaleWrite

/-!
# Zenith — reads without locks

A put and the background worker hold the writer mutex, a reader holds nothing: it loads
`active_mem_`, then `immut_head_`, then `layout_`, while the others go on. A put that
rotates the memtable makes two stores, the fresh memtable into `active_mem_` and then the
frozen one into the list of `immut_head_`. Between the two the frozen memtable can be
reached from neither.

`system` takes these stores as separate steps; `run_rotation` says that together they are
the rotation of `put`. A reader changes nothing, so a `get_crdt` among the steps of the
others is a choice of three states, one for each load. Loads and stores of one pointer are
atomic here, and an insertion into a memtable is one step; what a reader can meet inside of
an insertion is the subject of `Zenith.Storage.SkipReaders`.

Two facts about runs carry the result. `newest_run` says that the memtables, the frozen one
that is on its way included, hold the last register stored for each key. `since_run` says
what came on top of the frozen memtables between the first load and the second: registers
that were stored in between. A reader then misses a version only if it was in the frozen
memtable at the first load, which was in the middle of a rotation, and the same rotation is
not over at the second one. That is `Missed`, and nothing else is excluded.

A memtable that was flushed stays in the list, so tables need not be looked at.

Main result: `get_finds_put`.
-/

namespace Zenith

open Bytes

/-- Where the put that holds the writer mutex is. -/
inductive Writer
  | idle
  /-- the record is inserted, and the memtable is over the limit -/
  | inserted
  /-- the fresh memtable is in `active_mem_` -/
  | rotating (frozen : MemTable)

/-- What the threads share. -/
structure Shared where
  db : ZenithDB
  writer : Writer

namespace ZenithDB

/-- A `get_crdt` whose loads of `active_mem_`, `immut_head_` and `layout_` are made in
these three states. -/
def getCrdtAcross (s₁ s₂ s₃ : ZenithDB) (key : Bytes) : Except Fault (Option LWWRegister) := do
  let found ← match s₁.activeMem.probe key with
    | some raw => .ok (some raw)
    | none =>
      match s₂.immut.findSome? fun node => node.mt.probe key with
      | some raw => .ok (some raw)
      | none => lookupLevels key s₃.layout
  readRegister found

/-- With nothing between the loads this is `get_crdt`. -/
theorem getCrdtAcross_self (db : ZenithDB) (key : Bytes) :
    getCrdtAcross db db db key = db.getCrdt key := by
  unfold getCrdtAcross getCrdt lookup lookupMem memtables
  rw [List.findSome?_cons, List.findSome?_map]
  cases db.activeMem.probe key with
  | some raw => rfl
  | none => cases h : db.immut.findSome? (fun node => node.mt.probe key) <;>
      simp only [h, Function.comp_def]

/-- A key that the active memtable has. -/
theorem getCrdtAcross_of_active {s₁ : ZenithDB} {key raw : Bytes}
    (h : s₁.activeMem.probe key = some raw) (s₂ s₃ : ZenithDB) :
    getCrdtAcross s₁ s₂ s₃ key = readRegister (some raw) := by
  unfold getCrdtAcross
  rw [h]
  rfl

/-- A key that only frozen memtables have. -/
theorem getCrdtAcross_of_immut {s₁ s₂ : ZenithDB} {key raw : Bytes}
    (h : s₁.activeMem.probe key = none)
    (himmut : s₂.immut.findSome? (fun node => node.mt.probe key) = some raw) (s₃ : ZenithDB) :
    getCrdtAcross s₁ s₂ s₃ key = readRegister (some raw) := by
  unfold getCrdtAcross
  rw [h]
  dsimp only
  rw [himmut]
  rfl

end ZenithDB

namespace Shared

open ZenithDB

/-- What the threads but the readers do, in steps between which a reader may load. -/
inductive Action
  /-- `put(key, value)` up to its test for rotation -/
  | insert (usage : Nat) (key value : Bytes)
  /-- `put(key, LWWRegister)` up to its test for rotation -/
  | insertCrdt (usage : Nat) (key : Bytes) (incoming : LWWRegister)
  /-- a rotation stores the fresh memtable into `active_mem_` -/
  | storeActive
  /-- a rotation exchanges `immut_head_` -/
  | exchangeHead
  /-- one step of the background worker; its last act that readers see is the store
  into `layout_` -/
  | work (time : Nat → Nat)
  | otherNames (n : Nat)

/-- `mt->put`, the append to the log, and the test whether the memtable is over the limit. -/
def insertRecord (s : Shared) (clock : VectorClock) (usage : Nat) (key : Bytes)
    (reg : LWWRegister) : Shared where
  db := { s.db with
    localClock := clock
    activeMem := s.db.activeMem.put key reg.serialize
    disk := { s.db.disk with wal := s.db.disk.wal ++ Wal.encodeRecord (key, reg.serialize) } }
  writer := if usage > 2 * memtableLimit then .inserted else .idle

/-- Whether the worker has to wait for the mutex. It executes a compaction without it. -/
def workerWaits (s : Shared) : Bool :=
  match s.writer, s.db.worker with
  | .idle, _ => false
  | _, .executing _ => false
  | _, _ => true

/-- A thread that waits for the mutex does nothing. -/
def step (p : Platform) (s : Shared) : Action → Except Fault Shared
  | .insert usage key value =>
    match s.writer with
    | .idle =>
      let reg := s.db.localRegister value
      .ok (s.insertRecord reg.clock usage key reg)
    | _ => .ok s
  | .insertCrdt usage key incoming =>
    match s.writer with
    | .idle => do
      let existing ← s.db.getCrdt key
      return s.insertRecord (s.db.localClock.merge incoming.clock) usage key
        (resolve incoming existing)
    | _ => .ok s
  | .storeActive =>
    match s.writer with
    | .inserted => .ok ⟨{ s.db with activeMem := .new }, .rotating s.db.activeMem⟩
    | _ => .ok s
  | .exchangeHead =>
    match s.writer with
    | .rotating frozen => .ok ⟨{ s.db with immut := ⟨frozen, false⟩ :: s.db.immut }, .idle⟩
    | _ => .ok s
  | .work time =>
    if s.workerWaits then .ok s
    else do
      let db ← s.db.work p time
      return { s with db := db }
  | .otherNames n => .ok { s with db := { s.db with counter := s.db.counter + n } }

/-- The register that a step stores. -/
def stored (s : Shared) : Action → List (Bytes × LWWRegister)
  | .insert _ key value =>
    match s.writer with
    | .idle => [(key, s.db.localRegister value)]
    | _ => []
  | .insertCrdt _ key incoming =>
    match s.writer, s.db.getCrdt key with
    | .idle, .ok existing => [(key, resolve incoming existing)]
    | _, _ => []
  | _ => []

/-- The threads but the readers as a step system; the trace of a run lists the
registers it stores. -/
def system (p : Platform) : System Shared Action (Bytes × LWWRegister) Fault := ⟨step p, stored⟩

variable {p : Platform} {s s' : Shared} {key : Bytes}

/-- **Rotation.** The two stores after an insertion complete the put. -/
theorem run_rotation (s : Shared) (clock : VectorClock) (usage : Nat) (reg : LWWRegister) :
    (system p).run (s.insertRecord clock usage key reg) [.storeActive, .exchangeHead] =
      .ok ⟨{ s.db with localClock := clock }.storeRecord usage key reg.serialize, .idle⟩ := by
  by_cases hfull : usage > 2 * memtableLimit
  · simp only [insertRecord, storeRecord, if_pos hfull]
    rfl
  · simp only [insertRecord, storeRecord, if_neg hfull]
    rfl

-- ---------------------------------------------------------------------------
-- What a step does to the memtables
-- ---------------------------------------------------------------------------

/-- The memtable that a rotation has taken from `active_mem_` and not yet published. -/
def pending (s : Shared) : List MemTable :=
  match s.writer with
  | .rotating frozen => [frozen]
  | _ => []

/-- All memtables but the active one, newest first. -/
def older (s : Shared) : List MemTable := s.pending ++ s.db.immut.map (·.mt)

/-- What a step that stores these registers does to the memtables. -/
inductive Effect (s s' : Shared) : List (Bytes × LWWRegister) → Prop
  | quiet (hactive : s'.db.activeMem = s.db.activeMem) (holder : s'.older = s.older)
      (hlength : s.db.immut.length ≤ s'.db.immut.length) : Effect s s' []
  | insert (k : Bytes) (reg : LWWRegister)
      (hactive : s'.db.activeMem = s.db.activeMem.put k reg.serialize)
      (holder : s'.older = s.older) (hlength : s'.db.immut.length = s.db.immut.length) :
      Effect s s' [(k, reg)]
  | rotate (hactive : s'.db.activeMem = .new) (holder : s'.older = s.db.activeMem :: s.older)
      (hlength : s'.db.immut.length = s.db.immut.length) : Effect s s' []

/-- An insertion puts one register on top. -/
theorem effect_insertRecord (hwriter : s.writer = .idle) (clock : VectorClock) (usage : Nat) (k : Bytes)
    (reg : LWWRegister) : Effect s (s.insertRecord clock usage k reg) [(k, reg)] := by
  refine .insert k reg rfl ?_ rfl
  have hpending : (s.insertRecord clock usage k reg).pending = s.pending := by
    unfold pending insertRecord
    rw [hwriter]
    dsimp only
    split_ifs <;> rfl
  unfold older
  rw [hpending]
  rfl

/-- **One step.** It stores a register into the active memtable, or it freezes that
memtable; otherwise the memtables stay, a frozen one possibly in another place. -/
theorem step_effect {a : Action} (h : s.step p a = .ok s') : Effect s s' (s.stored a) := by
  -- an action that cannot run leaves all as it is
  have hwaits : s' = s → Effect s s' [] := fun h => .quiet (by rw [h]) (by rw [h]) (by rw [h])
  cases a with
  | insert usage k value =>
    unfold step at h
    unfold stored
    cases hwriter : s.writer with
    | idle =>
      rw [hwriter] at h
      obtain rfl := Except.ok.inj h
      exact effect_insertRecord hwriter _ usage k _
    | inserted => rw [hwriter] at h; exact hwaits (Except.ok.inj h).symm
    | rotating frozen => rw [hwriter] at h; exact hwaits (Except.ok.inj h).symm
  | insertCrdt usage k incoming =>
    unfold step at h
    unfold stored
    cases hwriter : s.writer with
    | idle =>
      rw [hwriter] at h
      obtain ⟨existing, hget, h⟩ := Except.bind_eq_ok_iff.mp h
      obtain rfl := Except.ok.inj h
      dsimp only
      rw [hget]
      exact effect_insertRecord hwriter _ usage k _
    | inserted => rw [hwriter] at h; exact hwaits (Except.ok.inj h).symm
    | rotating frozen => rw [hwriter] at h; exact hwaits (Except.ok.inj h).symm
  | storeActive =>
    unfold step at h
    cases hwriter : s.writer with
    | idle => rw [hwriter] at h; exact hwaits (Except.ok.inj h).symm
    | inserted =>
      rw [hwriter] at h
      obtain rfl := Except.ok.inj h
      -- the new active memtable is there before the old one is listed
      refine .rotate rfl ?_ rfl
      unfold older pending
      rw [hwriter]
      rfl
    | rotating frozen => rw [hwriter] at h; exact hwaits (Except.ok.inj h).symm
  | exchangeHead =>
    unfold step at h
    cases hwriter : s.writer with
    | idle => rw [hwriter] at h; exact hwaits (Except.ok.inj h).symm
    | inserted => rw [hwriter] at h; exact hwaits (Except.ok.inj h).symm
    | rotating frozen =>
      rw [hwriter] at h
      obtain rfl := Except.ok.inj h
      -- the frozen memtable moves to the head of the list
      refine .quiet rfl ?_ (Nat.le_succ _)
      unfold older pending
      rw [hwriter]
      rfl
  | work time =>
    unfold step at h
    dsimp only at h
    split at h
    · exact hwaits (Except.ok.inj h).symm
    · -- the worker changes files and entries, not memtables
      obtain ⟨db, hwork, h⟩ := Except.bind_eq_ok_iff.mp h
      obtain rfl := Except.ok.inj h
      obtain ⟨hactive, himmut⟩ := List.cons.inj (work_sameMem hwork).memtables
      refine .quiet hactive ?_ (le_of_eq ?_)
      · unfold older
        rw [himmut]
        rfl
      · rw [← List.length_map (f := (·.mt)), ← himmut, List.length_map]
  | otherNames n =>
    obtain rfl := Except.ok.inj h
    exact .quiet rfl rfl le_rfl

-- ---------------------------------------------------------------------------
-- What lookups find
-- ---------------------------------------------------------------------------

/-- The bytes of the newest version in a list of memtables. -/
def newest (mts : List MemTable) (key : Bytes) : Option Bytes := mts.findSome? fun mt => mt.probe key

/-- What a step leaves in the active memtable. -/
theorem Effect.probe_active {regs : List (Bytes × LWWRegister)} (h : Effect s s' regs)
    {raw : Bytes} (hraw : s'.db.activeMem.probe key = some raw) :
    s.db.activeMem.probe key = some raw ∨ ∃ reg, (key, reg) ∈ regs ∧ raw = reg.serialize := by
  cases h with
  | quiet hactive holder hlength =>
    rw [hactive] at hraw
    exact .inl hraw
  | insert k reg hactive holder hlength =>
    rw [hactive, MemTable.probe_eq, MemTable.get_put] at hraw
    by_cases hk : key = k
    · rw [if_pos hk, Option.filter_eq_some_iff] at hraw
      refine .inr ⟨reg, ?_, (Option.some.inj hraw.1).symm⟩
      rw [hk]
      exact List.mem_singleton.mpr rfl
    · rw [if_neg hk, ← MemTable.probe_eq] at hraw
      exact .inl hraw
  | rotate hactive holder hlength =>
    rw [hactive, MemTable.probe_eq_none_of_get (MemTable.get_new key)] at hraw
    exact absurd hraw (by simp)

/-- **Last writes.** The memtables, published or not, hold the last register that a run
stored for a key. -/
theorem newest_run {as : List Action} (hrun : (system p).run s as = .ok s') (key : Bytes) :
    newest (s'.db.activeMem :: s'.older) key =
      ((History.last key ((system p).trace s as)).map LWWRegister.serialize).or
        (newest (s.db.activeMem :: s.older) key) := by
  refine System.run_invariant (S := system p) (l := [])
    (P := fun tr t => newest (t.db.activeMem :: t.older) key =
      ((History.last key tr).map LWWRegister.serialize).or (newest (s.db.activeMem :: s.older) key))
    ?_ rfl System.along_true hrun
  intro tr t a t' hP _ hstep
  generalize hregs : (system p).emit t a = regs
  have heffect := step_effect hstep
  rw [show t.stored a = regs from hregs] at heffect
  unfold newest at hP ⊢
  -- an insertion is found first under its key; a rotation moves the active memtable but not
  -- out of sight
  cases heffect with
  | quiet hactive holder hlength =>
    rw [List.append_nil, hactive, holder]
    exact hP
  | insert k reg hactive holder hlength =>
    rw [History.last_append_singleton, hactive, holder, List.findSome?_cons]
    by_cases hk : key = k
    · subst hk
      rw [MemTable.probe_of_get (MemTable.get_put_self ..) reg.serialize_ne_nil, if_pos rfl]
      rfl
    · rw [MemTable.probe_eq, MemTable.get_put, if_neg hk, ← MemTable.probe_eq, if_neg hk, ← hP,
        List.findSome?_cons]
  | rotate hactive holder hlength =>
    rw [List.append_nil, hactive, holder, List.findSome?_cons,
      MemTable.probe_eq_none_of_get (MemTable.get_new key)]
    exact hP

/-- `old` are the memtables that were frozen when a reader found nothing in the active
one. What came on top of them since then holds registers stored since then. -/
structure Since (key : Bytes) (old : List MemTable) (length : Nat) (tr : List (Bytes × LWWRegister))
    (s : Shared) : Prop where
  length_le : length ≤ s.db.immut.length
  active : ∀ raw, s.db.activeMem.probe key = some raw →
    ∃ reg, (key, reg) ∈ tr ∧ raw = reg.serialize
  older : ∃ recent, s.older = recent ++ old ∧ ∀ mt ∈ recent, ∀ raw, mt.probe key = some raw →
    ∃ reg, (key, reg) ∈ tr ∧ raw = reg.serialize

/-- What a run puts on top of the frozen memtables, by induction on its steps. -/
theorem since_run {as : List Action} (hrun : (system p).run s as = .ok s')
    (hnone : s.db.activeMem.probe key = none) :
    Since key s.older s.db.immut.length ((system p).trace s as) s' := by
  refine System.run_invariant (S := system p) (l := [])
    (P := Since key s.older s.db.immut.length) ?_ ?_ System.along_true hrun
  · intro tr t a t' h _ hstep
    have heffect : Effect t t' ((system p).emit t a) := step_effect hstep
    -- what the active memtable holds was there before, or this step stored it
    have hactive : ∀ raw, t'.db.activeMem.probe key = some raw →
        ∃ reg, (key, reg) ∈ tr ++ (system p).emit t a ∧ raw = reg.serialize := by
      intro raw hraw
      rcases heffect.probe_active hraw with hraw | ⟨reg, hreg, rfl⟩
      · obtain ⟨reg, hreg, rfl⟩ := h.active raw hraw
        exact ⟨reg, List.mem_append_left _ hreg, rfl⟩
      · exact ⟨reg, List.mem_append_right _ hreg, rfl⟩
    obtain ⟨recent, hsplit, hrecent⟩ := h.older
    -- frozen memtables keep what they had
    have hkept : ∀ mt ∈ recent, ∀ raw, mt.probe key = some raw →
        ∃ reg, (key, reg) ∈ tr ++ (system p).emit t a ∧ raw = reg.serialize := by
      intro mt hmt raw hraw
      obtain ⟨reg, hreg, rfl⟩ := hrecent mt hmt raw hraw
      exact ⟨reg, List.mem_append_left _ hreg, rfl⟩
    generalize (system p).emit t a = regs at heffect hactive hkept ⊢
    cases heffect with
    | quiet _ holder hlength =>
      exact ⟨h.length_le.trans hlength, hactive, recent, holder.trans hsplit, hkept⟩
    | insert k reg _ holder hlength =>
      exact ⟨h.length_le.trans hlength.ge, hactive, recent, holder.trans hsplit, hkept⟩
    | rotate _ holder hlength =>
      -- the frozen memtable joins the recent ones
      refine ⟨h.length_le.trans hlength.ge, hactive, t.db.activeMem :: recent, ?_, ?_⟩
      · rw [holder, hsplit]
        rfl
      · refine List.forall_mem_cons.mpr ⟨fun raw hraw => ?_, hkept⟩
        obtain ⟨reg, hreg, rfl⟩ := h.active raw hraw
        exact ⟨reg, List.mem_append_left _ hreg, rfl⟩
  · refine ⟨le_rfl, fun raw hraw => ?_, [], rfl, fun mt hmt => absurd hmt List.not_mem_nil⟩
    rw [hnone] at hraw
    exact absurd hraw (by simp)

-- ---------------------------------------------------------------------------
-- Reads among the steps
-- ---------------------------------------------------------------------------

/-- Both loads of a reader, of `active_mem_` and of `immut_head_`, are made between the
two stores of one rotation, and the memtable it freezes has the key. -/
def Missed (s₁ s₂ : Shared) (key : Bytes) : Prop :=
  (∃ frozen ∈ s₁.pending, frozen.probe key ≠ none) ∧ s₂.db.immut.length = s₁.db.immut.length

instance (s₁ s₂ : Shared) (key : Bytes) : Decidable (Missed s₁ s₂ key) :=
  inferInstanceAs (Decidable (_ ∧ _))

/-- A version that is frozen at the first load is found at the second one, or else a
later version in front of it. -/
theorem newest_immut {s₁ s₂ : Shared} {tr : List (Bytes × LWWRegister)}
    (h : Since key s₁.older s₁.db.immut.length tr s₂) (hmissed : ¬ Missed s₁ s₂ key) {raw : Bytes}
    (hraw : newest s₁.older key = some raw) :
    ∃ found, newest (s₂.db.immut.map (·.mt)) key = some found ∧
      (found = raw ∨ ∃ reg, (key, reg) ∈ tr ∧ found = reg.serialize) := by
  obtain ⟨recent, hsplit, hrecent⟩ := h.older
  -- memtables that were frozen meanwhile hold what was stored meanwhile
  have hfound : ∀ mts : List MemTable, (∀ mt ∈ mts, mt ∈ recent) →
      ∃ found, newest (mts ++ s₁.older) key = some found ∧
        (found = raw ∨ ∃ reg, (key, reg) ∈ tr ∧ found = reg.serialize) := by
    intro mts hmts
    unfold newest at hraw ⊢
    rw [List.findSome?_append, hraw]
    cases hnew : mts.findSome? (fun mt => mt.probe key) with
    | none => exact ⟨raw, rfl, .inl rfl⟩
    | some found =>
      obtain ⟨mt, hmt, hprobe⟩ := List.exists_of_findSome?_eq_some hnew
      exact ⟨found, rfl, .inr (hrecent mt (hmts mt hmt) found hprobe)⟩
  have hlength := h.length_le
  unfold older pending at hsplit
  cases hwriter : s₂.writer with
  | idle =>
    rw [hwriter] at hsplit
    rw [show s₂.db.immut.map (·.mt) = recent ++ s₁.older from hsplit]
    exact hfound recent fun mt hmt => hmt
  | inserted =>
    rw [hwriter] at hsplit
    rw [show s₂.db.immut.map (·.mt) = recent ++ s₁.older from hsplit]
    exact hfound recent fun mt hmt => hmt
  | rotating frozen =>
    rw [hwriter] at hsplit
    cases recent with
    | cons first recent =>
      -- this rotation is later than the first load
      rw [show s₂.db.immut.map (·.mt) = recent ++ s₁.older from (List.cons.inj hsplit).2]
      exact hfound recent fun mt hmt => List.mem_cons_of_mem _ hmt
    | nil =>
      have hsame : frozen :: s₂.db.immut.map (·.mt) = s₁.pending ++ s₁.db.immut.map (·.mt) := hsplit
      have hmiss : ∀ mt ∈ s₁.pending, s₂.db.immut.length = s₁.db.immut.length →
          mt.probe key = none := by
        intro mt hmt hlen
        by_contra hprobe
        exact hmissed ⟨⟨mt, hmt, hprobe⟩, hlen⟩
      unfold newest older at hraw
      cases hpending : s₁.pending with
      | nil =>
        -- the list at the second load would be shorter than at the first
        have hlen := congrArg List.length hsame
        simp only [hpending, List.nil_append, List.length_cons, List.length_map] at hlen
        omega
      | cons mt more =>
        -- one rotation is under way at most
        have hone : more = [] := by
          unfold pending at hpending
          cases hw : s₁.writer <;> rw [hw] at hpending <;> simp_all
        rw [hpending, hone] at hsame hraw
        have hrest : s₂.db.immut.map (·.mt) = s₁.db.immut.map (·.mt) := (List.cons.inj hsame).2
        have hlen := congrArg List.length hrest
        simp only [List.length_map] at hlen
        have hskip := hmiss mt (by rw [hpending]; exact List.mem_cons_self ..) hlen
        rw [List.cons_append, List.findSome?_cons, hskip] at hraw
        rw [hrest]
        exact ⟨raw, hraw, .inl rfl⟩

/-- Not a removal of the key. -/
def Action.Keeps (key : Bytes) : Action → Prop
  | .insert _ k value => k = key → value ≠ []
  | .insertCrdt _ k incoming => k = key → incoming.value ≠ []
  | _ => True

/-- Without removals all registers of a key are live. -/
theorem stored_live {a : Action} (ha : a.Keeps key) {reg : LWWRegister}
    (hreg : (key, reg) ∈ s.stored a) : reg.value ≠ [] := by
  -- only the two insertions store anything
  cases a with
  | insert usage k value =>
    unfold stored at hreg
    cases hwriter : s.writer <;> rw [hwriter] at hreg <;> simp at hreg
    obtain ⟨rfl, rfl⟩ := hreg
    exact ha rfl
  | insertCrdt usage k incoming =>
    unfold stored at hreg
    cases hwriter : s.writer with
    | idle =>
      cases hget : s.db.getCrdt k with
      | error e => simp [hwriter, hget] at hreg
      | ok existing =>
        simp only [hwriter, hget, List.mem_singleton, Prod.mk.injEq] at hreg
        obtain ⟨rfl, rfl⟩ := hreg
        -- the merge of two live values is live
        cases existing with
        | none => exact ha rfl
        | some v => exact LWWRegister.value_merge_ne_nil (ha rfl) (getCrdt_live hget)
    | inserted => simp [hwriter] at hreg
    | rotating frozen => simp [hwriter] at hreg
  | storeActive => exact absurd hreg List.not_mem_nil
  | exchangeHead => exact absurd hreg List.not_mem_nil
  | work time => exact absurd hreg List.not_mem_nil
  | otherNames n => exact absurd hreg List.not_mem_nil

/-- A run without removals of the key stores live registers for it. -/
theorem trace_live {as : List Action} (hkeeps : ∀ a ∈ as, a.Keeps key)
    (hrun : (system p).run s as = .ok s') {reg : LWWRegister}
    (hreg : (key, reg) ∈ (system p).trace s as) : reg.value ≠ [] := by
  obtain ⟨before, a, after, t, t', rfl, -, -, hemit⟩ := System.mem_trace hrun hreg
  exact stored_live (hkeeps a (by simp)) hemit

/-- **No key vanishes.** A reader loads `active_mem_`, `immut_head_` and `layout_` in three
states of a run, from any database, after a put of the key and with no removal of it. Unless
it misses a rotation, it returns the register stored last before its first load or one that
was stored until its second load. The third state is any at all.

Hypotheses:
* `hrun₁`, `hrun₂` — the steps before the first load and between the first two, of any
  threads and in any order;
* `hkeeps` — none of them removes the key;
* `hencodable` — the clocks stored under the key can be encoded, their counters and ids
  within the fields, which is what makes the bytes read back;
* `hput` — the key was put before the first load;
* `hmissed` — the first two loads are not both between the two stores of a rotation that
  freezes the key. -/
theorem get_finds_put {db : ZenithDB} {as bs : List Action} {s₁ s₂ : Shared}
    (hrun₁ : (system p).run ⟨db, .idle⟩ as = .ok s₁) (hrun₂ : (system p).run s₁ bs = .ok s₂)
    (s₃ : Shared) (hkeeps : ∀ a ∈ as ++ bs, a.Keeps key)
    (hencodable : ∀ e ∈ (system p).trace ⟨db, .idle⟩ (as ++ bs), e.1 = key → e.2.clock.Encodable)
    {r₀ : LWWRegister} (hput : (key, r₀) ∈ (system p).trace ⟨db, .idle⟩ as)
    (hmissed : ¬ Missed s₁ s₂ key) :
    ∃ r, getCrdtAcross s₁.db s₂.db s₃.db key = .ok (some r) ∧
      (History.last key ((system p).trace ⟨db, .idle⟩ as) = some r ∨
        (key, r) ∈ (system p).trace s₁ bs) := by
  rw [System.trace_append hrun₁] at hencodable
  obtain ⟨last, hlast⟩ := History.last_isSome hput
  have hnewest := newest_run hrun₁ key
  rw [hlast] at hnewest
  unfold newest at hnewest
  rw [List.findSome?_cons] at hnewest
  -- every register stored so far reads back as itself
  have hread : ∀ r, (History.last key ((system p).trace ⟨db, .idle⟩ as) = some r ∨
      (key, r) ∈ (system p).trace s₁ bs) → readRegister (some r.serialize) = .ok (some r) := by
    intro r hr
    have hlive : r.value ≠ [] := by
      rcases hr with hr | hr
      · exact trace_live (fun a ha => hkeeps a (List.mem_append_left _ ha)) hrun₁ (History.last_mem hr)
      · exact trace_live (fun a ha => hkeeps a (List.mem_append_right _ ha)) hrun₂ hr
    have hclock : r.clock.Encodable := by
      rcases hr with hr | hr
      · exact hencodable _ (List.mem_append_left _ (History.last_mem hr)) rfl
      · exact hencodable _ (List.mem_append_right _ hr) rfl
    rw [readRegister_of_deserialize (LWWRegister.deserialize_serialize hclock), if_neg hlive]
  -- the reader finds the key in the active memtable, or goes on to the frozen ones
  cases hactive : s₁.db.activeMem.probe key with
  | some raw =>
    rw [hactive] at hnewest
    obtain rfl : raw = last.serialize := Option.some.inj hnewest
    rw [getCrdtAcross_of_active hactive]
    exact ⟨last, hread last (.inl hlast), .inl hlast⟩
  | none =>
    rw [hactive] at hnewest
    obtain ⟨found, hfound, hwhich⟩ := newest_immut (since_run hrun₂ hactive) hmissed hnewest
    unfold newest at hfound
    rw [List.findSome?_map] at hfound
    rw [getCrdtAcross_of_immut hactive hfound]
    rcases hwhich with rfl | ⟨reg, hreg, rfl⟩
    · exact ⟨last, hread last (.inl hlast), .inl hlast⟩
    · exact ⟨reg, hread reg (.inr hreg), .inr hreg⟩

/-- The first load is made in the middle of a rotation, the second one after it. -/
theorem get_finds_put_after_rotation :
    ∃ s₁ s₂, (system .stable).run ⟨fresh [65] 0, .idle⟩ [.insert 200000 [107] [118], .storeActive] =
        .ok s₁ ∧ (system .stable).run s₁ [.exchangeHead] = .ok s₂ ∧
      ∃ r, getCrdtAcross s₁.db s₂.db s₂.db [107] = .ok (some r) ∧
        (History.last [107] ((system .stable).trace ⟨fresh [65] 0, .idle⟩
            [.insert 200000 [107] [118], .storeActive]) = some r ∨
          ([107], r) ∈ (system .stable).trace s₁ [.exchangeHead]) := by
  obtain ⟨s₁, hrun₁⟩ := Except.exists_eq_ok (x := (system .stable).run ⟨fresh [65] 0, .idle⟩
    [.insert 200000 [107] [118], .storeActive]) (by decide +kernel)
  have hrotation : ∀ s₁, (system .stable).run ⟨fresh [65] 0, .idle⟩
      [.insert 200000 [107] [118], .storeActive] = .ok s₁ →
        ∃ s₂, (system .stable).run s₁ [.exchangeHead] = .ok s₂ ∧ ¬ Missed s₁ s₂ [107] := by
    decide +kernel
  obtain ⟨s₂, hrun₂, hmissed⟩ := hrotation s₁ hrun₁
  have hkeeps : ∀ a ∈ [Action.insert 200000 [107] [118], .storeActive] ++ [.exchangeHead],
      a.Keeps [107] := by
    simp [Action.Keeps]
  exact ⟨s₁, s₂, hrun₁, hrun₂, get_finds_put hrun₁ hrun₂ s₂ hkeeps (by decide +kernel)
    (show ([107], ⟨[118], VectorClock.empty.increment [65]⟩) ∈ _ by decide +kernel) hmissed⟩

/-- All loads are made between the two stores: the reader finds nothing, although the
put has inserted its record. -/
theorem rotation_hides_put :
    ([107], ⟨[118], VectorClock.empty.increment [65]⟩) ∈
        (system .stable).trace ⟨fresh [65] 0, .idle⟩ [.insert 200000 [107] [118], .storeActive] ∧
      ∃ s, (system .stable).run ⟨fresh [65] 0, .idle⟩ [.insert 200000 [107] [118], .storeActive] =
          .ok s ∧ getCrdtAcross s.db s.db s.db [107] = .ok none := by
  decide +kernel

end Shared

end Zenith
