import Zenith.DB.Rotation

/-!
# Zenith — a read takes effect at one moment

A `get_crdt` that runs among the steps of the other threads loads `active_mem_` and then
`immut_head_`, and answers with the first version it finds. In between any number of
memtables can fill up and be frozen, so it may return a register that is neither the one
stored last before its first load nor the one stored last before its second.

It is still a read of one moment between these two loads. The frozen memtables that the
second load adds to those of the first were active one after the other: a list that ends
below one of them is all there was when it was frozen. So whatever the reader finds, a
removal included, is the register stored last at that moment, and two reads of which one
ends before the other begins cannot go back in time.

The moment is found by going back along the list. `Layered` says of the memtables that were
frozen since the first load that what lies below each of them was all there was at some
state on the way, and it is kept by every step of every thread. If the key is in the active
memtable of the first load, the moment is the first load itself; otherwise it is the one
that belongs to the list which the second load returns.

The one exception is a rotation that the reader misses: it loads the new, empty memtable
between the two stores of the writer, and the list before the second one. The frozen
memtable is then in neither.

Main result: `get_linearizable`.
-/

namespace Zenith

open Bytes

namespace Shared

open ZenithDB

variable {p : Platform} {s₁ s₂ : Shared} {key : Bytes}

/-- Some state on the way showed the memtable lookups this version of the key. -/
def Shown (p : Platform) (s : Shared) (key : Bytes) (done : List Action) (raw : Option Bytes) :
    Prop :=
  ∃ before after t, done = before ++ after ∧ (system p).run s before = .ok t ∧
    newest (t.db.activeMem :: t.older) key = raw

/-- A state on the way stays one when the run goes on. -/
theorem Shown.snoc {s : Shared} {done : List Action} {raw : Option Bytes}
    (h : Shown p s key done raw) (a : Action) : Shown p s key (done ++ [a]) raw := by
  obtain ⟨before, after, t, rfl, hrun, hraw⟩ := h
  exact ⟨before, after ++ [a], t, List.append_assoc .., hrun, hraw⟩

/-- The memtables frozen since `s`, newest first, cover `s.older`; below each of them
lies what there was when it was frozen. -/
def Layered (p : Platform) (s : Shared) (key : Bytes) (done : List Action) (t : Shared) : Prop :=
  ∃ recent, t.older = recent ++ s.older ∧
    ∀ newer rest, recent = newer ++ rest → Shown p s key done (newest (rest ++ s.older) key)

/-- Each frozen memtable was the active one at its rotation, by induction on the run. -/
theorem layered_run {s t : Shared} {as : List Action} (hrun : (system p).run s as = .ok t)
    (hnone : s.db.activeMem.probe key = none) : Layered p s key as t := by
  have hstart : newest (s.db.activeMem :: s.older) key = newest s.older key := by
    unfold newest
    rw [List.findSome?_cons, hnone]
  refine System.run_prefix_invariant (S := system p) (l := []) (P := Layered p s key) ?_ ?_
    System.along_true hrun
  -- before the first step nothing was rotated, and the active memtable does not have the key
  · refine ⟨[], rfl, fun newer rest hsplit => ?_⟩
    obtain rfl := (List.append_eq_nil_iff.mp hsplit.symm).2
    exact ⟨[], [], s, rfl, rfl, hstart⟩
  · intro done t a t' hdone hlayered _ hstep
    obtain ⟨recent, hrecent, hshown⟩ := hlayered
    have hkept : t'.older = t.older → Layered p s key (done ++ [a]) t' := fun holder =>
      ⟨recent, holder.trans hrecent, fun newer rest hsplit => (hshown newer rest hsplit).snoc a⟩
    have heffect : Effect t t' (t.stored a) := step_effect hstep
    generalize t.stored a = regs at heffect
    -- only a rotation puts a memtable in front
    cases heffect with
    | quiet _ holder _ => exact hkept holder
    | insert k reg _ holder _ => exact hkept holder
    | rotate _ holder _ =>
      refine ⟨t.db.activeMem :: recent, by rw [holder, hrecent]; rfl, ?_⟩
      intro newer rest hsplit
      cases newer with
      | nil =>
        -- the whole list is what a lookup saw just before the rotation
        rw [List.nil_append] at hsplit
        rw [← hsplit, List.cons_append, ← hrecent]
        exact ⟨done, [a], t, rfl, hdone, rfl⟩
      | cons first newer =>
        exact (hshown newer rest (List.cons.inj hsplit).2).snoc a

/-- The list that the second load finds ends the memtables of some moment: all frozen
ones, or all but the one whose rotation is under way. -/
theorem immut_shown {as : List Action} (hrun : (system p).run s₁ as = .ok s₂)
    (hnone : s₁.db.activeMem.probe key = none) (hmissed : ¬ Missed s₁ s₂ key) :
    Shown p s₁ key as (newest (s₂.db.immut.map (·.mt)) key) := by
  obtain ⟨recent, hrecent, hshown⟩ := layered_run hrun hnone
  have hlength := (since_run hrun hnone).length_le
  have hall : s₂.db.immut.map (·.mt) = recent ++ s₁.older →
      Shown p s₁ key as (newest (s₂.db.immut.map (·.mt)) key) := by
    intro himmut
    rw [himmut]
    exact hshown [] recent rfl
  unfold older pending at hrecent
  -- between the stores of a rotation the pending memtable is in neither place
  cases hwriter : s₂.writer with
  | idle =>
    rw [hwriter] at hrecent
    exact hall hrecent
  | inserted =>
    rw [hwriter] at hrecent
    exact hall hrecent
  | rotating frozen =>
    rw [hwriter] at hrecent
    cases recent with
    | cons first recent =>
      rw [show s₂.db.immut.map (·.mt) = recent ++ s₁.older from (List.cons.inj hrecent).2]
      exact hshown [first] recent rfl
    | nil =>
      -- the rotation that is under way was so at the first load
      have hsame : frozen :: s₂.db.immut.map (·.mt) = s₁.pending ++ s₁.db.immut.map (·.mt) := hrecent
      have hskip : newest s₁.older key = newest (s₂.db.immut.map (·.mt)) key := by
        rw [older, ← hsame, newest, List.findSome?_cons]
        have hprobe : frozen.probe key = none := by
          by_contra hprobe
          refine hmissed ⟨⟨frozen, ?_, hprobe⟩, ?_⟩
          -- the frozen memtable is the one that was pending at the first load
          · have hlen := congrArg List.length hsame
            cases hpending : s₁.pending with
            | nil =>
              simp only [hpending, List.nil_append, List.length_cons, List.length_map] at hlen
              omega
            | cons mt more =>
              rw [hpending, List.cons_append] at hsame
              rw [(List.cons.inj hsame).1]
              exact List.mem_cons_self ..
          -- and the list has not grown between the loads
          · have hlen := congrArg List.length hsame
            have hone : s₁.pending.length ≤ 1 := by
              unfold pending
              cases s₁.writer <;> simp
            simp only [List.length_cons, List.length_append, List.length_map] at hlen
            omega
        rw [hprobe]
        rfl
      rw [← hskip]
      exact hshown [] [] rfl

/-- **Linearizability.** A reader that loads `active_mem_` and `immut_head_` while the other
threads take the steps `bs`, from any database and after a put of the key, returns the
register that was stored last at one moment between the two loads. The one exception is a
reader that misses a rotation.

The steps before the first load (`hrun₁`) and between the two (`hrun₂`) are those of any
threads in any order, and the state of the third load is any at all. The key was put before
the first load (`hput`). The two loads are not both between the two stores of one rotation
that freezes the key (`hmissed`): there the code has put the key aside and not yet made it
visible again. -/
theorem get_linearizable {db : ZenithDB} {as bs : List Action}
    (hrun₁ : (system p).run ⟨db, .idle⟩ as = .ok s₁) (hrun₂ : (system p).run s₁ bs = .ok s₂)
    (s₃ : Shared) {r₀ : LWWRegister} (hput : (key, r₀) ∈ (system p).trace ⟨db, .idle⟩ as)
    (hmissed : ¬ Missed s₁ s₂ key) :
    ∃ before after r, bs = before ++ after ∧
      History.last key ((system p).trace ⟨db, .idle⟩ (as ++ before)) = some r ∧
      getCrdtAcross s₁.db s₂.db s₃.db key = readRegister (some r.serialize) := by
  -- what the memtables show at any moment after the put is the register stored last
  have hlast : ∀ before t, (system p).run s₁ before = .ok t →
      ∃ r, History.last key ((system p).trace ⟨db, .idle⟩ (as ++ before)) = some r ∧
        newest (t.db.activeMem :: t.older) key = some r.serialize := by
    intro before t hbefore
    obtain ⟨r, hr⟩ : ∃ r, History.last key ((system p).trace ⟨db, .idle⟩ (as ++ before)) = some r := by
      rw [System.trace_append hrun₁]
      exact History.last_isSome (List.mem_append_left _ hput)
    have hnewest := newest_run ((System.run_append hrun₁).trans hbefore) key
    rw [hr] at hnewest
    exact ⟨r, hr, hnewest⟩
  cases hactive : s₁.db.activeMem.probe key with
  | some raw =>
    obtain ⟨r, hr, hnewest⟩ := hlast [] s₁ rfl
    unfold newest at hnewest
    rw [List.findSome?_cons, hactive] at hnewest
    obtain rfl : raw = r.serialize := Option.some.inj hnewest
    exact ⟨[], bs, r, rfl, hr, getCrdtAcross_of_active hactive ..⟩
  | none =>
    obtain ⟨before, after, t, hbs, hbefore, hshown⟩ := immut_shown hrun₂ hactive hmissed
    obtain ⟨r, hr, hnewest⟩ := hlast before t hbefore
    rw [hnewest, newest, List.findSome?_map] at hshown
    exact ⟨before, after, r, hbs, hr, getCrdtAcross_of_immut hactive hshown.symm ..⟩

/-- The key is frozen at the first load, and two more puts of it follow, of which the
first one is frozen before the second load. -/
theorem get_linearizable_two_puts :
    ∃ s₁ s₂, (system .stable).run ⟨fresh [65] 0, .idle⟩
        [.insert 200000 [107] [118], .storeActive, .exchangeHead] = .ok s₁ ∧
      (system .stable).run s₁ [.insert 200000 [107] [119], .storeActive, .exchangeHead,
        .insert 0 [107] [120]] = .ok s₂ ∧
      ∃ before after r, [Action.insert 200000 [107] [119], .storeActive, .exchangeHead,
          .insert 0 [107] [120]] = before ++ after ∧
        History.last [107] ((system .stable).trace ⟨fresh [65] 0, .idle⟩
          ([.insert 200000 [107] [118], .storeActive, .exchangeHead] ++ before)) = some r ∧
        getCrdtAcross s₁.db s₂.db s₂.db [107] = readRegister (some r.serialize) := by
  obtain ⟨s₁, hrun₁⟩ := Except.exists_eq_ok (x := (system .stable).run ⟨fresh [65] 0, .idle⟩
    [.insert 200000 [107] [118], .storeActive, .exchangeHead]) (by decide +kernel)
  have hrest : ∀ s₁, (system .stable).run ⟨fresh [65] 0, .idle⟩
      [.insert 200000 [107] [118], .storeActive, .exchangeHead] = .ok s₁ →
        ∃ s₂, (system .stable).run s₁ [.insert 200000 [107] [119], .storeActive, .exchangeHead,
          .insert 0 [107] [120]] = .ok s₂ ∧ ¬ Missed s₁ s₂ [107] := by
    decide +kernel
  obtain ⟨s₂, hrun₂, hmissed⟩ := hrest s₁ hrun₁
  exact ⟨s₁, s₂, hrun₁, hrun₂, get_linearizable hrun₁ hrun₂ s₂
    (show ([107], ⟨[118], VectorClock.empty.increment [65]⟩) ∈ _ by decide +kernel) hmissed⟩

end Shared

end Zenith
