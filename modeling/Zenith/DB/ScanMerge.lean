import Zenith.DB.Stores

/-!
# Zenith — merging the rows of a scan

`scan_crdt` collects the rows of all layers, sorts them by key and merges neighbours with
one key. The loop leaves one row for each key, and the register in it is not older than any
register that went into it, whatever order the sort leaves among equal keys.

The order matters because `std::sort` is not stable and a merge of registers of one clock
depends on the order: the first of two that are equal in clock wins or loses by its value.
So no more is claimed of a merged row than its clock. Where the clocks form a chain this
determines the row, and the modules that use it prove that.

`NotOlder` is the relation between two byte strings that this gives, and `Merged` is the
invariant of the loop: what it has made of the rows so far. Every row is covered by the
output, and every row of the output has the key of an input. The last loop drops tombstones
and keeps the order.

A mergeable predicate `Q` says that all rows can be read and that merges of them can be
stored again, so that no row makes the scan throw.

Main results: `mergeRows_spec` for the loop and `Stores.scanCrdt` for the whole scan.
-/

namespace Zenith

open Bytes

/-- Both byte strings decode, and the first register is not older. -/
def NotOlder (a b : Bytes) : Prop :=
  ∃ r s, LWWRegister.deserialize a = .ok r ∧ LWWRegister.deserialize b = .ok s ∧ s.clock ≤ r.clock

/-- Clocks are ordered, so this is transitive. -/
theorem NotOlder.trans {a b c : Bytes} (hab : NotOlder a b) (hbc : NotOlder b c) : NotOlder a c := by
  obtain ⟨r, s, hr, hs, hle⟩ := hab
  obtain ⟨s', t, hs', ht, hle'⟩ := hbc
  rw [hs] at hs'
  obtain rfl := Except.ok.inj hs'
  exact ⟨r, t, hr, ht, hle'.trans hle⟩

section Merge

variable {Q : Bytes → Bytes → Prop}

/-- A row that can be read is not older than itself. -/
theorem Mergeable.notOlder_refl (hQ : Mergeable Q) {key raw : Bytes} (h : Q key raw) :
    NotOlder raw raw := by
  obtain ⟨r, hr⟩ := hQ.decode h
  exact ⟨r, r, hr, hr, le_rfl⟩

/-- The merge of two stored registers reads back and is not older than either. -/
theorem Mergeable.merge_notOlder (hQ : Mergeable Q) {key a b : Bytes} (ha : Q key a) (hb : Q key b) :
    ∃ r o, LWWRegister.deserialize a = .ok r ∧ LWWRegister.deserialize b = .ok o ∧
      Q key (r.merge o).serialize ∧ NotOlder (r.merge o).serialize a ∧
      NotOlder (r.merge o).serialize b := by
  obtain ⟨r, o, hr, ho, hm⟩ := hQ.merge key a b ha hb
  -- a record that fits a block has a clock that fits its length field
  have hencodable : (r.merge o).clock.Encodable := by
    have hfits : 24 + key.length + (r.merge o).serialize.length < 2 ^ 32 := hQ.fits key _ hm
    have hlen := (r.merge o).length_serialize
    unfold VectorClock.Encodable
    omega
  have hback := LWWRegister.deserialize_serialize hencodable
  exact ⟨r, o, hr, ho, hm, ⟨_, r, hback, hr, LWWRegister.clock_le_merge_left r o⟩,
    ⟨_, o, hback, ho, LWWRegister.clock_le_merge_right r o⟩⟩

end Merge

namespace ZenithDB

variable {Q : Bytes → Bytes → Prop}

/-- What the merge loop has made of the rows in `done`: descending keys, each key
once, and nothing older than the rows that went in. -/
structure Merged (Q : Bytes → Bytes → Prop) (done finalRaw : List Entry) : Prop where
  rows : Rows Q finalRaw
  descending : finalRaw.Pairwise fun a b => b.1 < a.1
  covers : ∀ d ∈ done, ∃ e ∈ finalRaw, e.1 = d.1 ∧ NotOlder e.2 d.2
  range : ∀ e ∈ finalRaw, ∃ d ∈ done, d.1 = e.1

/-- One round of the loop, on a row that is not below the rows so far. -/
theorem Merged.mergeRow (hQ : Mergeable Q) {done finalRaw : List Entry} (h : Merged Q done finalRaw)
    {kv : Entry} (hkv : Q kv.1 kv.2) (hlast : ∀ d ∈ done, d.1 ≤ kv.1) :
    ∃ next, mergeRow finalRaw kv = .ok next ∧ Merged Q (done ++ [kv]) next := by
  have hself := hQ.notOlder_refl hkv
  have hle : ∀ e ∈ finalRaw, e.1 ≤ kv.1 := by
    intro e he
    obtain ⟨d, hd, hkey⟩ := h.range e he
    rw [← hkey]
    exact hlast d hd
  cases finalRaw with
  | nil =>
    -- the first row
    refine ⟨[kv], rfl, ?_, List.pairwise_singleton _ _, ?_, ?_⟩
    · simpa [Rows] using hkv
    · intro d hd
      rcases List.mem_append.mp hd with hd | hd
      · obtain ⟨e, he, -⟩ := h.covers d hd
        exact absurd he List.not_mem_nil
      · rw [List.mem_singleton.mp hd]
        exact ⟨kv, List.mem_singleton_self _, rfl, hself⟩
    · intro e he
      exact ⟨kv, by simp, by rw [List.mem_singleton.mp he]⟩
  | cons back before =>
    obtain ⟨hback, hbefore⟩ := List.forall_mem_cons.mp h.rows
    obtain ⟨hdesc, hdesc'⟩ := List.pairwise_cons.mp h.descending
    rw [ZenithDB.mergeRow]
    by_cases hkey : back.1 = kv.1
    · -- the key was seen before: its row becomes the merge of both
      obtain ⟨r, o, hr, ho, hm, hma, hmb⟩ := hQ.merge_notOlder (hkey ▸ hback) hkv
      rw [if_neg (by simpa using hkey)]
      simp only [hr, ho, Except.ok_bind, Except.pure_eq_ok]
      refine ⟨_, rfl, ?_, List.pairwise_cons.mpr ⟨hdesc, hdesc'⟩, ?_, ?_⟩
      · refine List.forall_mem_cons.mpr ⟨?_, hbefore⟩
        show Q back.1 (r.merge o).serialize
        rw [hkey]
        exact hm
      · intro d hd
        rcases List.mem_append.mp hd with hd | hd
        · obtain ⟨e, he, hekey, hold⟩ := h.covers d hd
          rcases List.mem_cons.mp he with rfl | he
          · exact ⟨_, List.mem_cons_self .., hekey, hma.trans hold⟩
          · exact ⟨e, List.mem_cons_of_mem _ he, hekey, hold⟩
        · rw [List.mem_singleton.mp hd]
          exact ⟨_, List.mem_cons_self .., hkey, hmb⟩
      · intro e he
        rcases List.mem_cons.mp he with rfl | he
        · exact ⟨kv, by simp, hkey.symm⟩
        · obtain ⟨d, hd, hdkey⟩ := h.range e (List.mem_cons_of_mem _ he)
          exact ⟨d, List.mem_append_left _ hd, hdkey⟩
    · -- a new key, above all keys so far
      rw [if_pos hkey]
      have hlt : back.1 < kv.1 := lt_of_le_of_ne (hle back (List.mem_cons_self ..)) hkey
      refine ⟨_, rfl, List.forall_mem_cons.mpr ⟨hkv, h.rows⟩, ?_, ?_, ?_⟩
      · refine List.pairwise_cons.mpr ⟨?_, h.descending⟩
        intro e he
        rcases List.mem_cons.mp he with rfl | he
        · exact hlt
        · exact (hdesc e he).trans hlt
      · intro d hd
        rcases List.mem_append.mp hd with hd | hd
        · obtain ⟨e, he, hrest⟩ := h.covers d hd
          exact ⟨e, List.mem_cons_of_mem _ he, hrest⟩
        · rw [List.mem_singleton.mp hd]
          exact ⟨kv, List.mem_cons_self .., rfl, hself⟩
      · intro e he
        rcases List.mem_cons.mp he with rfl | he
        · exact ⟨e, by simp, rfl⟩
        · obtain ⟨d, hd, hdkey⟩ := h.range e he
          exact ⟨d, List.mem_append_left _ hd, hdkey⟩

/-- **The merge loop.** By induction on the sorted rows that are left. -/
theorem mergeRows_spec (hQ : Mergeable Q) {done rows finalRaw : List Entry}
    (h : Merged Q done finalRaw) (hrows : Rows Q rows)
    (hsorted : (done ++ rows).Pairwise fun a b => a.1 ≤ b.1) :
    ∃ out, rows.foldlM ZenithDB.mergeRow finalRaw = .ok out ∧ Merged Q (done ++ rows) out := by
  induction rows generalizing done finalRaw with
  | nil => exact ⟨finalRaw, rfl, by simpa using h⟩
  | cons kv rows ih =>
    obtain ⟨hkv, hrest⟩ := List.forall_mem_cons.mp hrows
    obtain ⟨next, hnext, hmerged⟩ := h.mergeRow hQ hkv fun d hd =>
      (List.pairwise_append.mp hsorted).2.2 d hd kv (List.mem_cons_self ..)
    rw [List.foldlM_cons, hnext, Except.ok_bind]
    rw [List.append_cons] at hsorted ⊢
    exact ih hmerged hrest hsorted

/-- The last loop keeps the live registers, in order. -/
theorem liveRegisters_spec {rows : List Entry}
    (hrows : ∀ e ∈ rows, ∃ reg, LWWRegister.deserialize e.2 = .ok reg) :
    ∃ out, liveRegisters rows = .ok out ∧
      (out.map Prod.fst).Sublist (rows.map Prod.fst) ∧
      ∀ key reg, (key, reg) ∈ out ↔
        reg.value ≠ [] ∧ ∃ raw, (key, raw) ∈ rows ∧ LWWRegister.deserialize raw = .ok reg := by
  induction rows with
  | nil => exact ⟨[], rfl, List.Sublist.refl _, by simp⟩
  | cons kv rows ih =>
    obtain ⟨⟨first, hfirst⟩, hrest⟩ := List.forall_mem_cons.mp hrows
    obtain ⟨out, hout, hsub, hmem⟩ := ih hrest
    rw [liveRegisters, hfirst, Except.ok_bind, hout, Except.ok_bind]
    -- whether a register comes from the first row or from a later one
    have hsplit : ∀ key reg,
        (∃ raw, (key, raw) ∈ kv :: rows ∧ LWWRegister.deserialize raw = .ok reg) ↔
          (key = kv.1 ∧ reg = first) ∨
            ∃ raw, (key, raw) ∈ rows ∧ LWWRegister.deserialize raw = .ok reg := by
      intro key reg
      constructor
      · rintro ⟨raw, hraw, hreg⟩
        rcases List.mem_cons.mp hraw with heq | hraw
        · rw [← heq] at hfirst
          rw [hreg] at hfirst
          exact Or.inl ⟨congrArg Prod.fst heq, Except.ok.inj hfirst⟩
        · exact Or.inr ⟨raw, hraw, hreg⟩
      · rintro (⟨rfl, rfl⟩ | ⟨raw, hraw, hreg⟩)
        · exact ⟨kv.2, List.mem_cons_self .., hfirst⟩
        · exact ⟨raw, List.mem_cons_of_mem _ hraw, hreg⟩
    -- a tombstone leaves nothing, and what comes behind is as it was
    by_cases hnil : first.value = []
    · rw [if_pos hnil]
      refine ⟨out, rfl, hsub.cons _, ?_⟩
      intro key reg
      rw [hmem, hsplit]
      constructor
      · rintro ⟨hlive, h⟩
        exact ⟨hlive, Or.inr h⟩
      · rintro ⟨hlive, ⟨-, rfl⟩ | h⟩
        · exact absurd hnil hlive
        · exact ⟨hlive, h⟩
    · rw [if_neg hnil]
      refine ⟨(kv.1, first) :: out, rfl, hsub.cons_cons _, ?_⟩
      intro key reg
      rw [List.mem_cons, hmem, hsplit, Prod.mk.injEq]
      constructor
      · rintro (⟨rfl, rfl⟩ | ⟨hlive, h⟩)
        · exact ⟨hnil, Or.inl ⟨rfl, rfl⟩⟩
        · exact ⟨hlive, Or.inr h⟩
      · rintro ⟨hlive, ⟨rfl, rfl⟩ | h⟩
        · exact Or.inl ⟨rfl, rfl⟩
        · exact Or.inr ⟨hlive, h⟩

/-- **A scan.** It returns the live registers of one row for each key, ascending;
the row of a key is not older than any memtable row of it. -/
theorem Stores.scanCrdt {db : ZenithDB} (hQ : Mergeable Q) (h : Stores Q db) (p : Platform)
    (start stop : Bytes) :
    ∃ out finalRaw, db.scanCrdt p start stop = .ok out ∧
      (out.map Prod.fst).Pairwise (· < ·) ∧
      (∀ key reg, (key, reg) ∈ out ↔
        reg.value ≠ [] ∧ ∃ raw, (key, raw) ∈ finalRaw ∧ LWWRegister.deserialize raw = .ok reg) ∧
      Rows Q finalRaw ∧ (finalRaw.Pairwise fun a b => a.1 < b.1) ∧
      (∀ e ∈ finalRaw, start ≤ e.1 ∧ e.1 ≤ stop) ∧
      ∀ mt ∈ db.memtables, ∀ d ∈ mt.sortedEntries, start ≤ d.1 → d.1 ≤ stop →
        ∃ e ∈ finalRaw, e.1 = d.1 ∧ NotOlder e.2 d.2 := by
  unfold ZenithDB.scanCrdt
  by_cases hgt : start > stop
  · -- an empty range
    rw [if_pos hgt]
    refine ⟨[], [], rfl, List.Pairwise.nil, by simp, fun e he => absurd he List.not_mem_nil,
      List.Pairwise.nil, fun e he => absurd he List.not_mem_nil, ?_⟩
    intro mt _ d _ hstart hstop
    exact absurd (hstart.trans hstop) hgt.not_ge
  · rw [if_neg hgt]
    obtain ⟨rows, hcollect, hrows, hrange, hmem⟩ := h.collectRows start stop
    have hperm := p.sortRows_perm rows
    have hempty : Merged Q [] [] := ⟨fun e he => absurd he List.not_mem_nil, List.Pairwise.nil,
      fun d hd => absurd hd List.not_mem_nil, fun e he => absurd he List.not_mem_nil⟩
    -- the rows are sorted, so the loop starts from nothing
    obtain ⟨raws, hraws, hmerged⟩ := mergeRows_spec hQ hempty
      (fun e he => hrows e (hperm.mem_iff.mp he)) (p.sortRows_sorted rows)
    rw [List.nil_append] at hmerged
    -- every merged row is a register
    have hdecode : ∀ e ∈ raws.reverse, ∃ reg, LWWRegister.deserialize e.2 = .ok reg :=
      fun e he => hQ.decode (hmerged.rows e (List.mem_reverse.mp he))
    obtain ⟨out, hout, hsub, hiff⟩ := liveRegisters_spec hdecode
    have hascending : raws.reverse.Pairwise fun a b => a.1 < b.1 :=
      List.pairwise_reverse.mpr hmerged.descending
    refine ⟨out, raws.reverse, ?_, ?_, hiff, ?_, hascending, ?_, ?_⟩
    · rw [hcollect, Except.ok_bind, hraws, Except.ok_bind, hout]
    · apply List.Pairwise.sublist hsub
      rw [List.pairwise_map]
      exact hascending
    · intro e he
      exact hmerged.rows e (List.mem_reverse.mp he)
    · intro e he
      obtain ⟨d, hd, hkey⟩ := hmerged.range e (List.mem_reverse.mp he)
      rw [← hkey]
      exact hrange d (hperm.mem_iff.mp hd)
    · intro mt hmt d hd hstart hstop
      have hrow := hperm.mem_iff.mpr (hmem mt hmt d hd hstart hstop)
      obtain ⟨e, he, hkey, hold⟩ := hmerged.covers d hrow
      exact ⟨e, List.mem_reverse.mpr he, hkey, hold⟩

end ZenithDB

end Zenith
