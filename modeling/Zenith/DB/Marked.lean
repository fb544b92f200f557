import Zenith.DB.Clocks

/-!
# Zenith — properties of registers

What can be said of the registers that a database shows? A store holds bytes, a read merges
what it finds, and a delivery stores the result of a merge. So a property of the registers
of a key that merging keeps (`KeptByMerge`) holds of all that a database stores, and of all
that reads show, once it holds of what enters: registers are combined in no other way.

`Marked` is such a property, said of the bytes in the stores. It is mergeable in the sense
of `Stores`, so that flushes, compactions, restarts and crashes keep it by the results that
hold of any mergeable predicate. Point reads, scans and the layers themselves then give
registers that have it.

The property may be anything: that a value was written by somebody, that a clock belongs to
the members of a cluster, that the register is one of a given list. It is a parameter `R`
here and is chosen where the results are used. `Proper` adds what is needed to read the
bytes back: the clock has known components and the sizes fit.

The results of this module are `Stores.readProper`, `Stores.scanProper`,
`Stores.storedProper` and `Stores.putCrdtProper`.
-/

namespace Zenith

open Bytes

-- ---------------------------------------------------------------------------
-- Properties that merging keeps
-- ---------------------------------------------------------------------------

/-- Merging keeps the property. Nothing is asked of the clocks: both sides may come from
anywhere. -/
def KeptByMerge (R : Bytes → LWWRegister → Prop) : Prop :=
  ∀ key r o, R key r → R key o → R key (r.merge o)

namespace ZenithDB

variable {ids : List NodeID} {R : Bytes → LWWRegister → Prop} {key raw : Bytes} {db : ZenithDB}

/-- A register of a key that fits and has the property. -/
structure Proper (ids : List NodeID) (R : Bytes → LWWRegister → Prop) (key : Bytes)
    (r : LWWRegister) : Prop where
  clock : r.clock.Within ids
  fits : Fits ids key r.value
  has : R key r

/-- A merge of such registers is one. Its value is one of the two, so it fits. -/
theorem Proper.merge (hR : KeptByMerge R) {r o : LWWRegister} (hr : Proper ids R key r)
    (ho : Proper ids R key o) : Proper ids R key (r.merge o) := by
  obtain ⟨hids, hfits⟩ := fits_merge hr.clock ho.clock hr.fits ho.fits
  exact ⟨hids, hfits, hR key r o hr.has ho.has⟩

/-- A register that arrives, resolved against what the key shows. -/
theorem Proper.resolve (hR : KeptByMerge R) {incoming : LWWRegister}
    (hincoming : Proper ids R key incoming) {existing : Option LWWRegister}
    (hexisting : ∀ v ∈ existing, Proper ids R key v) :
    Proper ids R key (resolve incoming existing) := by
  cases existing with
  | none => exact hincoming
  | some v => exact hincoming.merge hR (hexisting v rfl)

/-- The bytes of such a register. -/
def Marked (ids : List NodeID) (R : Bytes → LWWRegister → Prop) (key raw : Bytes) : Prop :=
  ∃ r : LWWRegister, raw = r.serialize ∧ Proper ids R key r

/-- A stronger property implies a weaker one. -/
theorem Marked.mono {R' : Bytes → LWWRegister → Prop} (hle : ∀ k r, R k r → R' k r)
    (h : Marked ids R key raw) : Marked ids R' key raw := by
  obtain ⟨r, hraw, hids, hfits, hr⟩ := h
  exact ⟨r, hraw, hids, hfits, hle key r hr⟩

/-- Such bytes can be read. -/
theorem Marked.read (h : Marked ids R key raw) :
    ∃ r, LWWRegister.deserialize raw = .ok r ∧ Proper ids R key r := by
  obtain ⟨r, rfl, hr⟩ := h
  exact ⟨r, read_of_fits hr.clock hr.fits, hr⟩

/-- Whatever is read from them has the property. -/
theorem Marked.proper (h : Marked ids R key raw) {r : LWWRegister}
    (hread : LWWRegister.deserialize raw = .ok r) : Proper ids R key r := by
  obtain ⟨s, hs, hproper⟩ := h.read
  obtain rfl := Except.ok.inj (hs.symm.trans hread)
  exact hproper

/-- The property of the bytes is mergeable, so that the layers keep it. -/
theorem mergeable_marked (hR : KeptByMerge R) : Mergeable (Marked ids R) where
  fits key raw h := by
    obtain ⟨r, hraw, hr⟩ := h
    exact Held.entryFits ⟨r, hraw, hr.clock, hr.fits⟩
  merge key a b ha hb := by
    obtain ⟨r, hread, hr⟩ := ha.read
    obtain ⟨o, hread', ho⟩ := hb.read
    exact ⟨r, o, hread, hread', _, rfl, hr.merge hR ho⟩

/-- What a point read returns. -/
theorem Stores.readProper (h : Stores (Marked ids R) db) (hR : KeptByMerge R) (key : Bytes) :
    ∃ found, db.getCrdt key = .ok found ∧ ∀ r ∈ found, Proper ids R key r := by
  obtain ⟨found, hget, hfound⟩ := h.getCrdt (mergeable_marked hR) key
  refine ⟨found, hget, fun r hr => ?_⟩
  obtain ⟨-, raw, hraw, hread⟩ := hfound r hr
  exact hraw.proper hread

/-- What a scan returns. -/
theorem Stores.scanProper (h : Stores (Marked ids R) db) (hR : KeptByMerge R) (p : Platform)
    (start stop : Bytes) :
    ∃ out, db.scanCrdt p start stop = .ok out ∧ ∀ kv ∈ out, Proper ids R kv.1 kv.2 := by
  obtain ⟨out, finalRaw, hscan, -, hmem, hrows, -⟩ :=
    h.scanCrdt (mergeable_marked hR) p start stop
  refine ⟨out, hscan, ?_⟩
  rintro ⟨key, reg⟩ hout
  obtain ⟨-, raw, hraw, hread⟩ := (hmem key reg).mp hout
  exact (hrows _ hraw).proper hread

/-- What a layer holds is marked. -/
theorem Stores.storedProper (h : Stores (Marked ids R) db) (hR : KeptByMerge R) {reg : LWWRegister}
    (hreg : StoredIn db key reg) : Proper ids R key reg := by
  obtain ⟨raw, hread, hwhere⟩ := hreg
  have hraw : Marked ids R key raw := by
    rcases hwhere with ⟨mt, hmt, hentry⟩ | ⟨level, hlevel, fe, hfe, hrow⟩ | ⟨e, he, hrow⟩
    · exact h.memtables mt hmt _ hentry
    · exact (h.layout level hlevel fe hfe).2.row hrow
    · exact fileHolds_tableRow (mergeable_marked hR) (h.files e he) hrow
  exact hraw.proper hread

/-- A delivery stores what the incoming register resolves to. -/
theorem Stores.putCrdtProper (h : Stores (Marked ids R) db) (hR : KeptByMerge R) (usage : Nat)
    {incoming : LWWRegister} (hincoming : Proper ids R key incoming) :
    (db.putCrdt usage key incoming).Post (Stores (Marked ids R)) WriteFailed := by
  refine h.step (mergeable_marked hR) .stable (a := .putCrdt usage key incoming) ?_
  obtain ⟨found, hget, hfound⟩ := h.readProper hR key
  rw [stored, hget]
  exact List.forall_mem_singleton.mpr ⟨_, rfl, hincoming.resolve hR hfound⟩

end ZenithDB

end Zenith
