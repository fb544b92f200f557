import Zenith.DB.Marked
import Zenith.DB.Rotation

/-!
# Zenith — scans without locks

A scan makes the same three loads as a point read, of `active_mem_`, `immut_head_` and
`layout_`, among the steps of the other threads, and merges all rows it then collects. What
it sees is no state of the database: the memtables are of two moments and the tables of a
third (`seen`). But all of it are layers of states of the run, so every row is one that can
be merged, and nothing the reader of a point would find is left out.

The proof has two halves. One is about what is there: `Sound` says of a state that every
layer of it holds rows that can be merged and, for the key in question, no removal; each
step of a thread keeps it, and `stores_seen` puts the layers of three sound states together.
Such a mixture can be scanned like any database. The other half is about what is found:
`exists_entry` takes from the results on rotations that one of the memtables that were
loaded holds a version of the key, namely the last one before the first load or one stored
between the first two loads. The merge of the scan has a clock above that version.

Two things can go wrong, and the assumptions exclude them. A rotation makes two stores, and
a scan that loads the active memtable after the first and the list before the second finds
the frozen memtable in neither (`Missed`). A removal of the key among the steps, or a
tombstone that an older process left in a table, is merged like any row and may hide the
put; hence the empty directory and `Keeps`.

Main result: `scan_finds_put`.
-/

namespace Zenith

open Bytes

namespace ZenithDB

/-- What a reader sees whose loads of `active_mem_`, `immut_head_` and `layout_` are made
in these three states. -/
def seen (s₁ s₂ s₃ : ZenithDB) : ZenithDB :=
  { s₃ with activeMem := s₁.activeMem, immut := s₂.immut }

/-- The point read of `getCrdtAcross` is one of what is seen. -/
theorem getCrdt_seen (s₁ s₂ s₃ : ZenithDB) (key : Bytes) :
    (seen s₁ s₂ s₃).getCrdt key = getCrdtAcross s₁ s₂ s₃ key :=
  (getCrdtAcross_self (seen s₁ s₂ s₃) key).symm

/-- A `scan_crdt` with its loads in three states. -/
def scanCrdtAcross (p : Platform) (s₁ s₂ s₃ : ZenithDB) (start stop : Bytes) :
    Except Fault (List (Bytes × LWWRegister)) :=
  (seen s₁ s₂ s₃).scanCrdt p start stop

end ZenithDB

namespace Shared

open ZenithDB

variable {ids : List NodeID} {p : Platform} {s s' : Shared} {key : Bytes}

-- ---------------------------------------------------------------------------
-- What the threads share
-- ---------------------------------------------------------------------------

/-- The register is of another key, or no removal. -/
def NotRemoved (key k : Bytes) (r : LWWRegister) : Prop := k = key → r.value ≠ []

theorem keptByMerge_notRemoved (key : Bytes) : KeptByMerge (NotRemoved key) :=
  fun _ _ _ hr ho hk => LWWRegister.value_merge_ne_nil (hr hk) (ho hk)

/-- What is put fits its length fields. Rows that do not fit cannot be told apart when they
are read back, so nothing could be said about merging them. -/
def Enters (ids : List NodeID) : Action → Prop
  | .insert _ key value => Fits ids key value
  | .insertCrdt _ key incoming => incoming.clock.Within ids ∧ Fits ids key incoming.value
  | _ => True

/-- The layers of the database, and the memtable that is in none of them: between the two
stores of a rotation the frozen memtable is held by the writer alone, and it comes back with
the second. -/
structure Sound (ids : List NodeID) (key : Bytes) (s : Shared) : Prop where
  node : s.db.nodeId ∈ ids
  clock : s.db.localClock.Within ids
  stores : Stores (Marked ids (NotRemoved key)) s.db
  pending : ∀ mt ∈ s.pending, Rows (Marked ids (NotRemoved key)) mt.sortedEntries

theorem sound_fresh {nodeId : NodeID} (hnode : nodeId ∈ ids) (counter : Nat) (key : Bytes) :
    Sound ids key ⟨fresh nodeId counter, .idle⟩ where
  node := hnode
  clock := VectorClock.within_empty
  stores := stores_fresh nodeId counter
  pending _ hmt := absurd hmt List.not_mem_nil

/-- A register that a step stores. For a delivery it is a merge with what is read, and a
merge of two registers that are no removals is none. -/
theorem Sound.stored_proper (h : s.Sound ids key) {a : Action} (hkeeps : a.Keeps key)
    (henters : Enters ids a) {k : Bytes} {reg : LWWRegister} (hreg : (k, reg) ∈ s.stored a) :
    Proper ids (NotRemoved key) k reg := by
  -- only the two insertions store anything, and only while no rotation is under way
  cases a with
  | insert usage k' value =>
    unfold Shared.stored at hreg
    cases hwriter : s.writer <;> rw [hwriter] at hreg <;> simp at hreg
    obtain ⟨rfl, rfl⟩ := hreg
    exact ⟨h.clock.increment h.node, henters, hkeeps⟩
  | insertCrdt usage k' incoming =>
    unfold Shared.stored at hreg
    cases hwriter : s.writer with
    | idle =>
      -- what is stored is the merge with what `get_crdt` found, and both are proper
      obtain ⟨found, hget, hfound⟩ := h.stores.readProper (keptByMerge_notRemoved key) k'
      simp only [hwriter, hget, List.mem_singleton, Prod.mk.injEq] at hreg
      obtain ⟨rfl, rfl⟩ := hreg
      exact Proper.resolve (keptByMerge_notRemoved key) ⟨henters.1, henters.2, hkeeps⟩ hfound
    | inserted => simp [hwriter] at hreg
    | rotating frozen => simp [hwriter] at hreg
  | storeActive => exact absurd hreg List.not_mem_nil
  | exchangeHead => exact absurd hreg List.not_mem_nil
  | work time => exact absurd hreg List.not_mem_nil
  | otherNames n => exact absurd hreg List.not_mem_nil

/-- An insertion of a register that may enter. -/
theorem Sound.insertRecord (h : s.Sound ids key) {clock : VectorClock} (hclock : clock.Within ids)
    (usage : Nat) {k : Bytes} {reg : LWWRegister} (hreg : Proper ids (NotRemoved key) k reg) :
    (s.insertRecord clock usage k reg).Sound ids key where
  node := h.node
  clock := hclock
  stores := by
    refine ⟨?_, h.stores.layout, h.stores.worker, h.stores.files⟩
    obtain ⟨hactive, hrest⟩ := List.forall_mem_cons.mp h.stores.memtables
    refine List.forall_mem_cons.mpr ⟨fun e he => ?_, hrest⟩
    rcases SortedMap.mem_insertEntry he with rfl | hold
    · exact ⟨reg, rfl, hreg⟩
    · exact hactive e hold
  pending mt hmt := by
    unfold Shared.pending Shared.insertRecord at hmt
    dsimp only at hmt
    split_ifs at hmt <;> exact absurd hmt List.not_mem_nil

/-- **One step** of the threads keeps the layers. -/
theorem Sound.step (h : s.Sound ids key) {a : Action} (hkeeps : a.Keeps key)
    (henters : Enters ids a) (hstep : s.step p a = .ok s') : s'.Sound ids key := by
  have hproper : ∀ k reg, (k, reg) ∈ s.stored a → Proper ids (NotRemoved key) k reg :=
    fun _ _ hreg => h.stored_proper hkeeps henters hreg
  cases a with
  | insert usage k value =>
    unfold Shared.step at hstep
    unfold Shared.stored at hproper
    cases hwriter : s.writer with
    | idle =>
      rw [hwriter] at hstep hproper
      obtain rfl := Except.ok.inj hstep
      exact h.insertRecord (h.clock.increment h.node) usage
        (hproper k _ (List.mem_singleton_self _))
    | inserted => rw [hwriter] at hstep; rwa [← Except.ok.inj hstep]
    | rotating frozen => rw [hwriter] at hstep; rwa [← Except.ok.inj hstep]
  | insertCrdt usage k incoming =>
    unfold Shared.step at hstep
    unfold Shared.stored at hproper
    cases hwriter : s.writer with
    | idle =>
      obtain ⟨existing, hget, -⟩ := h.stores.readProper (keptByMerge_notRemoved key) k
      rw [hwriter] at hstep hproper
      dsimp only at hstep hproper
      rw [hget] at hstep hproper
      obtain rfl := Except.ok.inj hstep
      exact h.insertRecord (h.clock.merge henters.1) usage
        (hproper k _ (List.mem_singleton_self _))
    | inserted => rw [hwriter] at hstep; rwa [← Except.ok.inj hstep]
    | rotating frozen => rw [hwriter] at hstep; rwa [← Except.ok.inj hstep]
  -- the active memtable becomes the pending one, and an empty one takes its place
  | storeActive =>
    unfold Shared.step at hstep
    cases hwriter : s.writer with
    | idle => rw [hwriter] at hstep; rwa [← Except.ok.inj hstep]
    | inserted =>
      rw [hwriter] at hstep
      obtain rfl := Except.ok.inj hstep
      obtain ⟨hactive, hrest⟩ := List.forall_mem_cons.mp h.stores.memtables
      exact ⟨h.node, h.clock, ⟨List.forall_mem_cons.mpr
        ⟨fun e he => absurd he List.not_mem_nil, hrest⟩, h.stores.layout, h.stores.worker,
        h.stores.files⟩, List.forall_mem_singleton.mpr hactive⟩
    | rotating frozen => rw [hwriter] at hstep; rwa [← Except.ok.inj hstep]
  -- the pending memtable becomes the first of the frozen ones
  | exchangeHead =>
    unfold Shared.step at hstep
    cases hwriter : s.writer with
    | idle => rw [hwriter] at hstep; rwa [← Except.ok.inj hstep]
    | inserted => rw [hwriter] at hstep; rwa [← Except.ok.inj hstep]
    | rotating frozen =>
      rw [hwriter] at hstep
      obtain rfl := Except.ok.inj hstep
      have hfrozen : Rows (Marked ids (NotRemoved key)) frozen.sortedEntries := by
        refine h.pending frozen ?_
        unfold Shared.pending
        rw [hwriter]
        exact List.mem_singleton_self frozen
      obtain ⟨hactive, hrest⟩ := List.forall_mem_cons.mp h.stores.memtables
      exact ⟨h.node, h.clock, ⟨List.forall_mem_cons.mpr ⟨hactive, List.forall_mem_cons.mpr
        ⟨hfrozen, hrest⟩⟩, h.stores.layout, h.stores.worker, h.stores.files⟩,
        fun mt hmt => absurd hmt List.not_mem_nil⟩
  -- the worker reads the frozen memtables and makes tables of them
  | work time =>
    unfold Shared.step at hstep
    dsimp only at hstep
    split at hstep
    · rwa [← Except.ok.inj hstep]
    · obtain ⟨db, hwork, heq⟩ := Except.bind_eq_ok_iff.mp hstep
      obtain rfl := Except.ok.inj heq
      have hsame := work_sameMem hwork
      refine ⟨?_, ?_, (h.stores.work (mergeable_marked (keptByMerge_notRemoved key)) p
        time).result hwork, h.pending⟩
      · rw [hsame.nodeId]
        exact h.node
      · rw [hsame.localClock]
        exact h.clock
  | otherNames n =>
    obtain rfl := Except.ok.inj hstep
    exact ⟨h.node, h.clock, ⟨h.stores.memtables, h.stores.layout, h.stores.worker,
      h.stores.files⟩, h.pending⟩

/-- A run of the threads, by induction on it; the trace lists what was stored. -/
theorem Sound.run (h : s.Sound ids key) {as : List Action} (hkeeps : ∀ a ∈ as, a.Keeps key)
    (henters : ∀ a ∈ as, Enters ids a) (hrun : (system p).run s as = .ok s') :
    s'.Sound ids key ∧
      ∀ e ∈ (system p).trace s as, Proper ids (NotRemoved key) e.1 e.2 := by
  have halong : (system p).Along (fun _ _ a => a.Keeps key ∧ Enters ids a) [] s as :=
    System.along_of_prefix fun before a after t has _ =>
      have ha : a ∈ as := by rw [has]; exact List.mem_append_right _ (List.mem_cons_self ..)
      ⟨hkeeps a ha, henters a ha⟩
  have hall := System.run_invariant (S := system p)
    (P := fun tr t => t.Sound ids key ∧ ∀ e ∈ tr, Proper ids (NotRemoved key) e.1 e.2) ?_
    ⟨h, fun e he => absurd he List.not_mem_nil⟩ halong hrun
  · rwa [List.nil_append] at hall
  · rintro tr t a t' ⟨ht, htr⟩ ⟨hka, hea⟩ hstep
    exact ⟨ht.step hka hea hstep, List.forall_mem_append.mpr
      ⟨htr, fun e he => ht.stored_proper hka hea he⟩⟩

-- ---------------------------------------------------------------------------
-- Scans among the steps
-- ---------------------------------------------------------------------------

/-- What is seen in three states are layers of them. -/
theorem stores_seen {s₁ s₂ s₃ : Shared} (h₁ : s₁.Sound ids key) (h₂ : s₂.Sound ids key)
    (h₃ : s₃.Sound ids key) :
    Stores (Marked ids (NotRemoved key)) (seen s₁.db s₂.db s₃.db) where
  memtables := List.forall_mem_cons.mpr ⟨(List.forall_mem_cons.mp h₁.stores.memtables).1,
    (List.forall_mem_cons.mp h₂.stores.memtables).2⟩
  layout := h₃.stores.layout
  worker := h₃.stores.worker
  files := h₃.stores.files

/-- A version that a reader sees in a memtable. It is in the memtable that was loaded first,
or it has been frozen since and is in the list that was loaded second. -/
theorem exists_entry {as bs : List Action} {start s₁ s₂ : Shared}
    (hrun₁ : (system p).run start as = .ok s₁) (hrun₂ : (system p).run s₁ bs = .ok s₂)
    {r₀ : LWWRegister} (hput : (key, r₀) ∈ (system p).trace start as) (hmissed : ¬ Missed s₁ s₂ key)
    (s₃ : Shared) :
    ∃ r, (∃ mt ∈ (seen s₁.db s₂.db s₃.db).memtables, (key, r.serialize) ∈ mt.sortedEntries) ∧
      (History.last key ((system p).trace start as) = some r ∨
        (key, r) ∈ (system p).trace s₁ bs) := by
  obtain ⟨last, hlast⟩ := History.last_isSome hput
  have hnewest := newest_run hrun₁ key
  rw [hlast] at hnewest
  unfold newest at hnewest
  rw [List.findSome?_cons] at hnewest
  have hentry : ∀ mt : MemTable, ∀ raw, mt.probe key = some raw → (key, raw) ∈ mt.sortedEntries :=
    fun mt raw hprobe => SortedMap.get?_eq_some_iff.mp (MemTable.get_of_probe hprobe)
  cases hactive : s₁.db.activeMem.probe key with
  | some raw =>
    rw [hactive] at hnewest
    obtain rfl : raw = last.serialize := Option.some.inj hnewest
    exact ⟨last, ⟨s₁.db.activeMem, List.mem_cons_self .., hentry _ _ hactive⟩, .inl hlast⟩
  | none =>
    rw [hactive] at hnewest
    -- the rotation is not missed, so a version that left the active memtable is in the list
    obtain ⟨found, hfound, hwhich⟩ := newest_immut (since_run hrun₂ hactive) hmissed hnewest
    obtain ⟨mt, hmt, hprobe⟩ := List.exists_of_findSome?_eq_some hfound
    have hmem : mt ∈ (seen s₁.db s₂.db s₃.db).memtables := List.mem_cons_of_mem _ hmt
    rcases hwhich with rfl | ⟨reg, hreg, rfl⟩
    · exact ⟨last, ⟨mt, hmem, hentry mt _ hprobe⟩, .inl hlast⟩
    · exact ⟨reg, ⟨mt, hmem, hentry mt _ hprobe⟩, .inr hreg⟩

/-- **No key is missing from a scan.** A scan makes its loads in three states of a run from
an empty directory, after a put of the key and with no removal of it. Unless it misses a
rotation, it returns the key, with a register that is not older than one stored last before
its first load or stored until its second.

Hypotheses:
* `hnode` — the node's own id is one of `ids`, over which all clocks are;
* `hrun₁`, `hrun₂`, `hrun₃` — the run up to the first load, to the second, and to the third.
  The directory was empty at its start, so that no table of an earlier process takes part in
  the merge;
* `hkeeps` — no step removes the key;
* `henters` — what is put fits its length fields;
* `hput` — the key was put before the first load;
* `hmissed` — the first two loads are not both between the two stores of a rotation that
  freezes the key;
* `hstart`, `hstop` — the key is in the range. -/
theorem scan_finds_put {nodeId : NodeID} (hnode : nodeId ∈ ids) {counter : Nat}
    {as bs cs : List Action} {s₁ s₂ s₃ : Shared}
    (hrun₁ : (system p).run ⟨fresh nodeId counter, .idle⟩ as = .ok s₁)
    (hrun₂ : (system p).run s₁ bs = .ok s₂) (hrun₃ : (system p).run s₂ cs = .ok s₃)
    (hkeeps : ∀ a ∈ as ++ (bs ++ cs), a.Keeps key) (henters : ∀ a ∈ as ++ (bs ++ cs), Enters ids a)
    {r₀ : LWWRegister} (hput : (key, r₀) ∈ (system p).trace ⟨fresh nodeId counter, .idle⟩ as)
    (hmissed : ¬ Missed s₁ s₂ key) (q : Platform) {start stop : Bytes} (hstart : start ≤ key)
    (hstop : key ≤ stop) :
    ∃ rows, scanCrdtAcross q s₁.db s₂.db s₃.db start stop = .ok rows ∧
      (rows.map Prod.fst).Pairwise (· < ·) ∧
      ∃ reg r, (key, reg) ∈ rows ∧ r.clock ≤ reg.clock ∧
        (History.last key ((system p).trace ⟨fresh nodeId counter, .idle⟩ as) = some r ∨
          (key, r) ∈ (system p).trace s₁ bs) := by
  obtain ⟨hkeeps₁, hkeeps⟩ := List.forall_mem_append.mp hkeeps
  obtain ⟨hkeeps₂, hkeeps₃⟩ := List.forall_mem_append.mp hkeeps
  obtain ⟨henters₁, henters⟩ := List.forall_mem_append.mp henters
  obtain ⟨henters₂, henters₃⟩ := List.forall_mem_append.mp henters
  obtain ⟨h₁, htrace₁⟩ := (sound_fresh hnode counter key).run hkeeps₁ henters₁ hrun₁
  obtain ⟨h₂, htrace₂⟩ := h₁.run hkeeps₂ henters₂ hrun₂
  obtain ⟨h₃, -⟩ := h₂.run hkeeps₃ henters₃ hrun₃
  have hstores := stores_seen h₁ h₂ h₃
  obtain ⟨out, finalRaw, hscan, hascending, hout, hrows, -, -, hcovers⟩ :=
    hstores.scanCrdt (mergeable_marked (keptByMerge_notRemoved key)) q start stop
  -- a version in the memtables, and the row that was merged from it
  obtain ⟨r, ⟨mt, hmt, hentry⟩, hwhich⟩ := exists_entry hrun₁ hrun₂ hput hmissed s₃
  obtain ⟨e, he, hkey, reg, s, hreg, hs, hle⟩ := hcovers mt hmt _ hentry hstart hstop
  have hr : Proper ids (NotRemoved key) key r := by
    rcases hwhich with hlast | hmem
    · exact htrace₁ _ (History.last_mem hlast)
    · exact htrace₂ _ hmem
  obtain rfl := Except.ok.inj (hs.symm.trans (read_of_fits hr.clock hr.fits))
  have hproper := (hrows e he).proper hreg
  refine ⟨out, hscan, hascending, reg, s, (hout key reg).mpr ⟨hproper.has hkey, e.2, ?_, hreg⟩, hle,
    hwhich⟩
  rw [← show e.1 = key from hkey]
  exact he

/-- The memtables of a scan are of two moments: the first put is frozen between them. -/
theorem scan_finds_put_frozen :
    ∃ s₁ s₂, (system .stable).run ⟨fresh [65] 0, .idle⟩ [.insert 200000 [107] [118]] = .ok s₁ ∧
      (system .stable).run s₁ [.storeActive, .exchangeHead, .insert 0 [107] [119],
        .work fun _ => 0] = .ok s₂ ∧
      ∃ rows, scanCrdtAcross .stable s₁.db s₂.db s₂.db [107] [108] = .ok rows ∧
        (rows.map Prod.fst).Pairwise (· < ·) ∧
        ∃ reg r, ([107], reg) ∈ rows ∧ r.clock ≤ reg.clock ∧
          (History.last [107] ((system .stable).trace ⟨fresh [65] 0, .idle⟩
              [.insert 200000 [107] [118]]) = some r ∨
            ([107], r) ∈ (system .stable).trace s₁ [.storeActive, .exchangeHead,
              .insert 0 [107] [119], .work fun _ => 0]) := by
  obtain ⟨s₁, hrun₁⟩ := Except.exists_eq_ok (x := (system .stable).run ⟨fresh [65] 0, .idle⟩
    [.insert 200000 [107] [118]]) (by decide +kernel)
  have hrest : ∀ s₁, (system .stable).run ⟨fresh [65] 0, .idle⟩ [.insert 200000 [107] [118]] =
      .ok s₁ → ∃ s₂, (system .stable).run s₁ [.storeActive, .exchangeHead,
        .insert 0 [107] [119], .work fun _ => 0] = .ok s₂ ∧ ¬ Missed s₁ s₂ [107] := by
    decide +kernel
  obtain ⟨s₂, hrun₂, hmissed⟩ := hrest s₁ hrun₁
  have hnone : (system .stable).run s₂ [] = .ok s₂ := rfl
  have hnode : ([65] : NodeID) ∈ [[65]] := List.mem_singleton_self _
  refine ⟨s₁, s₂, hrun₁, hrun₂, scan_finds_put hnode hrun₁ hrun₂ hnone (by simp [Action.Keeps]) ?_
    (show ([107], ⟨[118], VectorClock.empty.increment [65]⟩) ∈ _ by decide +kernel) hmissed .stable
    (by decide) (by decide)⟩
  simp only [List.append_nil, List.cons_append, List.nil_append, List.forall_mem_cons]
  exact ⟨by show Fits _ _ _; decide, trivial, trivial, by show Fits _ _ _; decide, trivial,
    fun _ h => absurd h List.not_mem_nil⟩

end Shared

end Zenith
