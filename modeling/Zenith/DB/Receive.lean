import Zenith.DB.ReadsAgree
import Zenith.DB.StaleWrite

/-!
# Zenith — receiving registers

A transfer between two nodes ends in deliveries: the scan of one node becomes a list of
rows, and the other node gets a `put_crdt` for each of them. What a database reads after it
has merged in registers from a peer, one for each key, is described by `Received`: a key of
theirs reads as its register merged into what was read before, and every other key reads as
before.

Nothing is needed for that but that all keys can be read and that the registers fit. The
merge is the one of the code, `resolve`: with a live register it is a merge, and behind a
tombstone or at an unknown key it is the incoming register itself.

That the rows have different keys matters. A scan gives each key once, and a second row for
a key would be merged into the first.

Whether the versions stay in order is another matter: each register has to displace the
frozen versions of its key, as in `Orderly`. This is `Displacing`, asked of each delivery in
the state in which it arrives.

Main results: `Readable.receive` and `Ordered.receive`.
-/

namespace Zenith

open Bytes VectorClock

namespace ZenithDB

variable {ids : List NodeID} {db : ZenithDB}

/-- A register that a read can return, and that can be stored and sent. -/
structure Live (ids : List NodeID) (key : Bytes) (r : LWWRegister) : Prop where
  value : r.value ≠ []
  clock : r.clock.Within ids
  fits : Fits ids key r.value

/-- Such a register is read back from its bytes. -/
theorem Live.read {key : Bytes} {r : LWWRegister} (h : Live ids key r) :
    LWWRegister.deserialize r.serialize = .ok r := read_of_fits h.clock h.fits

/-- It is held by a layer that stores it. -/
theorem Live.held {key : Bytes} {r : LWWRegister} (h : Live ids key r) :
    Held ids key r.serialize := ⟨r, rfl, h.clock, h.fits⟩

/-- Neither side has the empty value, so the result has a value as well. -/
theorem Live.resolve {key : Bytes} {r : LWWRegister} {existing : Option LWWRegister}
    (h : Live ids key r) (hexisting : ∀ v ∈ existing, Live ids key v) :
    Live ids key (resolve r existing) := by
  cases existing with
  | none => exact h
  | some v =>
    have hv := hexisting v rfl
    obtain ⟨hclock, hfits⟩ := fits_merge h.clock hv.clock h.fits hv.fits
    exact ⟨LWWRegister.value_merge_ne_nil h.value hv.value, hclock, hfits⟩

/-- Every key can be read. -/
def Readable (ids : List NodeID) (db : ZenithDB) : Prop :=
  ∀ key, ∃ found, db.getCrdt key = .ok found ∧ ∀ v ∈ found, Live ids key v

/-- The versions of an ordered database can be read. -/
theorem Ordered.readable (h : Ordered ids db) : Readable ids db := by
  intro key
  rcases h.point key with ⟨v, ⟨⟨mt, hmt, raw, hraw, hv⟩, -⟩, hget⟩ | ⟨-, hget⟩
  · refine ⟨_, hget, fun w hw => ?_⟩
    obtain ⟨v', hv', -, hclock, hfits⟩ := (h.stores.memtables mt hmt _ hraw).1.read
    obtain rfl := Except.ok.inj (hv'.symm.trans hv)
    by_cases hnil : v'.value = []
    · rw [if_pos hnil] at hw
      exact absurd hw (by simp)
    · rw [if_neg hnil] at hw
      obtain rfl := Option.some.inj hw
      exact ⟨hnil, hclock, hfits⟩
  · exact ⟨none, hget, fun w hw => absurd hw (by simp)⟩

/-- A scan returns registers that can be sent. -/
theorem Ordered.scan_live (h : Ordered ids db) {p : Platform} {start stop : Bytes}
    {out : List (Bytes × LWWRegister)} (hscan : db.scanCrdt p start stop = .ok out) :
    ∀ kv ∈ out, Live ids kv.1 kv.2 := by
  obtain ⟨out', finalRaw, hscan', -, hmem, hrows, -⟩ :=
    h.stores.scanCrdt (mergeable_kept h.chain) p start stop
  obtain rfl := Except.ok.inj (hscan'.symm.trans hscan)
  rintro ⟨key, reg⟩ hout
  obtain ⟨hlive, raw, hraw, hreg⟩ := (hmem key reg).mp hout
  obtain ⟨r, hr, -, hclock, hfits⟩ := (hrows _ hraw).1.read
  obtain rfl := Except.ok.inj (hr.symm.trans hreg)
  exact ⟨hlive, hclock, hfits⟩

-- ---------------------------------------------------------------------------
-- One register
-- ---------------------------------------------------------------------------

/-- A stored record changes what is read of its own key only. -/
theorem getCrdt_storeRecord_of_ne (db : ZenithDB) (usage : Nat) {key serialized k : Bytes}
    (hne : serialized ≠ []) (hk : k ≠ key) :
    (db.storeRecord usage key serialized).getCrdt k = db.getCrdt k := by
  have hlayout : (db.storeRecord usage key serialized).layout = db.layout := by
    unfold storeRecord
    split <;> rfl
  unfold getCrdt lookup
  rw [lookupMem_storeRecord db usage hne k, if_neg hk, hlayout]

/-- **One delivery** stores what the register resolves to and changes no other key. -/
theorem Readable.putCrdt (h : Readable ids db) (usage : Nat) {key : Bytes} {r : LWWRegister}
    (hr : Live ids key r) :
    ∃ db' existing, db.getCrdt key = .ok existing ∧ db.putCrdt usage key r = .ok db' ∧
      db'.getCrdt key = .ok (some (ZenithDB.resolve r existing)) ∧
      (∀ k, k ≠ key → db'.getCrdt k = db.getCrdt k) ∧ Readable ids db' := by
  obtain ⟨existing, hget, hexisting⟩ := h key
  have hlive := hr.resolve hexisting
  obtain ⟨db', hput⟩ := putCrdt_ok hget usage r
  have hafter := getCrdt_putCrdt hget hput
  rw [readRegister_of_deserialize hlive.read, if_neg hlive.value] at hafter
  have hother : ∀ k, k ≠ key → db'.getCrdt k = db.getCrdt k := by
    intro k hk
    unfold ZenithDB.putCrdt at hput
    rw [hget, Except.ok_bind] at hput
    obtain rfl := Except.ok.inj hput
    exact getCrdt_storeRecord_of_ne _ usage (LWWRegister.serialize_ne_nil _) hk
  refine ⟨db', existing, hget, hput, hafter, hother, fun k => ?_⟩
  by_cases hk : k = key
  · subst hk
    refine ⟨_, hafter, fun v hv => ?_⟩
    obtain rfl := Option.some.inj hv
    exact hlive
  · rw [hother k hk]
    exact h k

-- ---------------------------------------------------------------------------
-- All registers of a scan
-- ---------------------------------------------------------------------------

/-- The writes of a database that receives these rows. -/
def receipts (usage : Nat → Nat) (first : Nat) (rows : List (Bytes × LWWRegister)) : List Action :=
  (rows.zipIdx first).map fun e => .putCrdt (usage e.2) e.1.1 e.1.2

/-- What is read after rows were received, `db'`, and before, `db`. -/
structure Received (rows : List (Bytes × LWWRegister)) (db db' : ZenithDB) : Prop where
  row : ∀ key r existing, (key, r) ∈ rows → db.getCrdt key = .ok existing →
    db'.getCrdt key = .ok (some (resolve r existing))
  other : ∀ key, (∀ r, (key, r) ∉ rows) → db'.getCrdt key = db.getCrdt key

/-- **Receiving rows**, by induction on them: a row is merged in by its own write and
left alone by the later ones. -/
theorem Readable.receive (p : Platform) (usage : Nat → Nat) {rows : List (Bytes × LWWRegister)}
    (hrows : ∀ kv ∈ rows, Live ids kv.1 kv.2) (hnodup : (rows.map Prod.fst).Nodup) (first : Nat)
    (h : Readable ids db) :
    ∃ db', (system p).run db (receipts usage first rows) = .ok db' ∧ Received rows db db' := by
  -- row by row: keys are distinct, so what a row leaves under its key stays to the end
  induction rows generalizing db first with
  | nil => exact ⟨db, rfl, fun _ _ _ hmem => absurd hmem List.not_mem_nil, fun _ _ => rfl⟩
  | cons kv rows ih =>
    obtain ⟨key, r⟩ := kv
    obtain ⟨hkey, hrest⟩ := List.nodup_cons.mp hnodup
    obtain ⟨d, existing, hget, hput, hnew, hold, hreadable⟩ :=
      h.putCrdt (usage first) (hrows _ (List.mem_cons_self ..))
    obtain ⟨db', hrun, hreceived⟩ := ih (fun e he => hrows e (List.mem_cons_of_mem _ he)) hrest
      (first + 1) hreadable
    refine ⟨db', ?_, ?_, ?_⟩
    · have hstep : (system p).step db (.putCrdt (usage first) key r) = .ok d := hput
      show (system p).run db (.putCrdt (usage first) key r :: receipts usage (first + 1) rows) = _
      rw [System.run_cons_ok hstep, hrun]
    -- the row of the key is the first one, or among those behind it
    · intro k s found hmem hfound
      rcases List.mem_cons.mp hmem with heq | hin
      · obtain ⟨rfl, rfl⟩ := Prod.mk.inj heq
        obtain rfl := Except.ok.inj (hget.symm.trans hfound)
        rw [hreceived.other k fun r' hr' => hkey (List.mem_map.mpr ⟨(k, r'), hr', rfl⟩), hnew]
      · have hk : k ≠ key := by
          rintro rfl
          exact hkey (List.mem_map.mpr ⟨(k, s), hin, rfl⟩)
        exact hreceived.row k s found hin (by rw [hold k hk, hfound])
    · intro k hk
      have hne : k ≠ key := by
        rintro rfl
        exact hk r (List.mem_cons_self ..)
      rw [hreceived.other k fun s hs => hk s (List.mem_cons_of_mem _ hs), hold k hne]

/-- The register takes the place of the frozen versions of its key. Of other actions nothing
is asked. -/
def Displacing (db : ZenithDB) : Action → Prop
  | .putCrdt _ key incoming =>
    ∀ existing, db.getCrdt key = .ok existing → ∀ u, Frozen db key u → Displaces existing incoming u
  | _ => True

instance (db : ZenithDB) : ∀ a, Decidable (Displacing db a)
  | .put _ _ _ => isTrue trivial
  | .putCrdt _ key incoming => inferInstanceAs (Decidable (∀ existing, db.getCrdt key = .ok existing →
      ∀ u, Frozen db key u → Displaces existing incoming u))
  | .work _ => isTrue trivial
  | .otherNames _ => isTrue trivial

/-- **Receiving rows in order.** The condition is asked of every delivery, in the state that
the deliveries before it left. -/
theorem Ordered.receive (p : Platform) (usage : Nat → Nat) {rows : List (Bytes × LWWRegister)}
    (hrows : ∀ kv ∈ rows, Live ids kv.1 kv.2) (first : Nat) {l : List Entry} (h : Ordered ids db)
    (hdisplacing : (system p).Along (fun _ => Displacing) l db (receipts usage first rows))
    {db' : ZenithDB} (hrun : (system p).run db (receipts usage first rows) = .ok db') :
    Ordered ids db' := by
  induction rows generalizing db first l with
  | nil =>
    obtain rfl := Except.ok.inj hrun
    exact h
  | cons kv rows ih =>
    obtain ⟨hfirst, hrest⟩ := hdisplacing
    have hlive := hrows kv (List.mem_cons_self ..)
    obtain ⟨d, existing, -, hput, hordered⟩ :=
      h.putCrdt (usage first) hlive.clock hlive.fits hfirst
    have hstep : (system p).step db (.putCrdt (usage first) kv.1 kv.2) = .ok d := hput
    exact ih (fun e he => hrows e (List.mem_cons_of_mem _ he)) (first + 1) hordered
      (hrest d hstep) ((System.run_cons_ok hstep _).symm.trans hrun)

end ZenithDB

end Zenith
