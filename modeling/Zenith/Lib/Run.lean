import Zenith.Lib.Outcome

/-!
# Runs of a step system

A system takes fallible steps, and every step emits labels: the part of its history that a
property is about. A run performs a list of actions and stops at the first fault; its trace
lists what its steps emitted. The same step function can be given different labels by
different properties.

A run can be subject to a condition on its steps (`Along`), which may look at the trace so
far and at the state in which the step is taken. That is how an assumption about an
environment is stated: it is asked of each step in the state before it, and never of the
states that the run comes to.

The run rules package the induction over actions. An invariant that is kept by one step
under the condition holds at the end of a run, and a user of a rule proves the step. Since
actions are chosen freely, a statement about all lists of actions is a statement about all
interleavings of whoever acts.

Main results:

* `run_outcome` — an invariant of trace and state that every step keeps, or else stops with
  a fault of a given kind, holds at the end of a run;
* `run_invariant` — the same for runs that are known to succeed;
* `run_prefix_invariant` — the same for an invariant of state and actions done;
* `run_simulation` — a step-by-step match of two systems is a match of their runs;
* `run_comes_to_rest` — a measure that every step lowers bounds the number of steps;
* `mem_trace` — every label of a trace was emitted by one step of the run;
* `last_append_singleton` — how the last value recorded for a key changes.
-/

/-- A step function together with what its steps emit. -/
structure System (σ α β ε : Type) where
  step : σ → α → Except ε σ
  emit : σ → α → List β

namespace System

variable {σ α β ε : Type} {S : System σ α β ε}

/-- Performs the actions in order. -/
def run (S : System σ α β ε) (s : σ) (as : List α) : Except ε σ := as.foldlM S.step s

/-- What the steps of a run emit, up to the first fault. -/
def trace (S : System σ α β ε) : σ → List α → List β
  | _, [] => []
  | s, a :: as =>
    match S.step s a with
    | .ok s' => S.emit s a ++ trace S s' as
    | .error _ => []

/-- Every step of a run meets the condition, given the trace before it. -/
def Along (S : System σ α β ε) (cond : List β → σ → α → Prop) : List β → σ → List α → Prop
  | _, _, [] => True
  | tr, s, a :: as =>
    cond tr s a ∧ ∀ s', S.step s a = .ok s' → Along S cond (tr ++ S.emit s a) s' as

/-- A decidable condition on steps is a decidable condition on runs. -/
instance decidableAlong {cond : List β → σ → α → Prop} [h : ∀ tr s a, Decidable (cond tr s a)] :
    ∀ (tr : List β) (s : σ) (as : List α), Decidable (S.Along cond tr s as)
  | _, _, [] => isTrue trivial
  | tr, s, a :: as =>
    have : DecidablePred fun s' => S.Along cond (tr ++ S.emit s a) s' as :=
      fun s' => decidableAlong (tr ++ S.emit s a) s' as
    inferInstanceAs (Decidable (cond tr s a ∧
      ∀ s', S.step s a = .ok s' → S.Along cond (tr ++ S.emit s a) s' as))

@[simp] theorem run_nil (s : σ) : S.run s [] = .ok s := rfl

@[simp] theorem trace_nil (s : σ) : S.trace s [] = [] := rfl

/-- A first step that succeeds. -/
theorem run_cons_ok {s s' : σ} {a : α} (h : S.step s a = .ok s') (as : List α) :
    S.run s (a :: as) = S.run s' as := by
  rw [run, List.foldlM_cons, h]
  rfl

/-- A first step that fails ends the run. -/
theorem run_cons_error {s : σ} {a : α} {e : ε} (h : S.step s a = .error e) (as : List α) :
    S.run s (a :: as) = .error e := by
  rw [run, List.foldlM_cons, h]
  rfl

/-- The labels of the first step come first. -/
theorem trace_cons_ok {s s' : σ} {a : α} (h : S.step s a = .ok s') (as : List α) :
    S.trace s (a :: as) = S.emit s a ++ S.trace s' as := by
  rw [trace, h]

/-- Every run that starts with a step starts with a successful one. -/
theorem run_cons_eq_ok {s t : σ} {a : α} {as : List α} (h : S.run s (a :: as) = .ok t) :
    ∃ s', S.step s a = .ok s' ∧ S.run s' as = .ok t := by
  cases hstep : S.step s a with
  | error e =>
    rw [run_cons_error hstep] at h
    exact absurd h (by simp)
  | ok s' => exact ⟨s', rfl, by rw [← h, run_cons_ok hstep]⟩

/-- A run is the run of its first part followed by that of its second. -/
theorem run_append {s : σ} {as bs : List α} {s' : σ} (h : S.run s as = .ok s') :
    S.run s (as ++ bs) = S.run s' bs := by
  induction as generalizing s with
  | nil => rw [List.nil_append, ← Except.ok.inj h]
  | cons a as ih =>
    obtain ⟨t, hstep, hrest⟩ := run_cons_eq_ok h
    rw [List.cons_append, run_cons_ok hstep, ih hrest]

/-- A run that succeeds has a state after its first part. -/
theorem run_append_eq_ok {s t : σ} {as bs : List α} (h : S.run s (as ++ bs) = .ok t) :
    ∃ m, S.run s as = .ok m ∧ S.run m bs = .ok t := by
  rw [run, List.foldlM_append] at h
  exact Except.bind_eq_ok_iff.mp h

/-- The trace of a run in two parts. -/
theorem trace_append {s : σ} {as bs : List α} {s' : σ} (h : S.run s as = .ok s') :
    S.trace s (as ++ bs) = S.trace s as ++ S.trace s' bs := by
  induction as generalizing s with
  | nil =>
    rw [← Except.ok.inj h]
    rfl
  | cons a as ih =>
    obtain ⟨t, hstep, hrest⟩ := run_cons_eq_ok h
    rw [List.cons_append, trace_cons_ok hstep, trace_cons_ok hstep, ih hrest, List.append_assoc]

/-- The first part of a run meets the condition. -/
theorem Along.append_left {cond : List β → σ → α → Prop} {tr : List β} {s : σ} {as bs : List α}
    (h : S.Along cond tr s (as ++ bs)) : S.Along cond tr s as := by
  induction as generalizing tr s with
  | nil => trivial
  | cons a as ih => exact ⟨h.1, fun s' hstep => ih (h.2 s' hstep)⟩

/-- So does the second, given the trace of the first. -/
theorem Along.append_right {cond : List β → σ → α → Prop} {tr : List β} {s t : σ} {as bs : List α}
    (h : S.Along cond tr s (as ++ bs)) (hrun : S.run s as = .ok t) :
    S.Along cond (tr ++ S.trace s as) t bs := by
  induction as generalizing tr s with
  | nil =>
    obtain rfl := Except.ok.inj hrun
    rw [trace_nil, List.append_nil]
    exact h
  | cons a as ih =>
    obtain ⟨u, hstep, hrest⟩ := run_cons_eq_ok hrun
    rw [trace_cons_ok hstep, ← List.append_assoc]
    exact ih (h.2 u hstep) hrest

/-- Two conditions that are met are met together. -/
theorem Along.and {cond cond' : List β → σ → α → Prop} {l : List β} {s : σ} {as : List α}
    (h : S.Along cond l s as) (h' : S.Along cond' l s as) :
    S.Along (fun tr s a => cond tr s a ∧ cond' tr s a) l s as := by
  induction as generalizing l s with
  | nil => trivial
  | cons a as ih => exact ⟨⟨h.1, h'.1⟩, fun s' hstep => ih (h.2 s' hstep) (h'.2 s' hstep)⟩

/-- The condition at one step, given the run before it. -/
theorem Along.at_step {cond : List β → σ → α → Prop} {l : List β} {s t : σ} {before after : List α}
    {a : α} (h : S.Along cond l s (before ++ a :: after)) (hrun : S.run s before = .ok t) :
    cond (l ++ S.trace s before) t a := (h.append_right hrun).1

/-! ## The run rules -/

/-- **Run rule.** By induction on the actions: each step keeps the invariant or
stops the run with an allowed fault. -/
theorem run_outcome {cond : List β → σ → α → Prop} {P : List β → σ → Prop} {F : ε → Prop}
    (hstep : ∀ tr s a, P tr s → cond tr s a → (S.step s a).Post (P (tr ++ S.emit s a)) F)
    {l : List β} {s : σ} {as : List α} (h : P l s) (halong : S.Along cond l s as) :
    (S.run s as).Post (P (l ++ S.trace s as)) F := by
  induction as generalizing l s with
  | nil =>
    rw [trace_nil, List.append_nil]
    exact h
  | cons a as ih =>
    obtain ⟨hcond, hrest⟩ := halong
    have hpost := hstep l s a h hcond
    cases hs : S.step s a with
    | error e =>
      rw [hs] at hpost
      rw [run_cons_error hs]
      exact hpost
    | ok s' =>
      rw [hs] at hpost
      rw [run_cons_ok hs, trace_cons_ok hs, ← List.append_assoc]
      exact ih hpost (hrest s' hs)

/-- **Run rule** for a run that succeeds. -/
theorem run_invariant {cond : List β → σ → α → Prop} {P : List β → σ → Prop}
    (hstep : ∀ tr s a s', P tr s → cond tr s a → S.step s a = .ok s' → P (tr ++ S.emit s a) s')
    {l : List β} {s s' : σ} {as : List α} (h : P l s) (halong : S.Along cond l s as)
    (hrun : S.run s as = .ok s') : P (l ++ S.trace s as) s' := by
  have hpost : (S.run s as).Post (P (l ++ S.trace s as)) fun _ => True := by
    refine run_outcome (fun tr s a hP hcond => ?_) h halong
    cases ha : S.step s a with
    | ok t => exact hstep tr s a t hP hcond ha
    | error e => trivial
  exact hpost.result hrun

/-- The condition that asks for nothing. -/
theorem along_true {tr : List β} {s : σ} {as : List α} :
    S.Along (fun _ _ _ => True) tr s as := by
  induction as generalizing tr s with
  | nil => trivial
  | cons a as ih => exact ⟨trivial, fun s' _ => ih⟩

/-- A condition that is met at every step is met along the run. -/
theorem along_of_prefix {cond : List β → σ → α → Prop} {l : List β} {s : σ} {as : List α}
    (h : ∀ before a after t, as = before ++ a :: after → S.run s before = .ok t →
      cond (l ++ S.trace s before) t a) : S.Along cond l s as := by
  induction as generalizing l s with
  | nil => trivial
  | cons a as ih =>
    refine ⟨by simpa using h [] a as s rfl rfl, fun s' hstep => ih ?_⟩
    intro before b after t has hrun
    have := h (a :: before) b after t (by rw [has]; rfl) (by rw [run_cons_ok hstep, hrun])
    rwa [trace_cons_ok hstep, ← List.append_assoc] at this

/-- A condition is met along a run that succeeds when it is met at each of its
steps. -/
theorem along_iff {cond : List β → σ → α → Prop} {l : List β} {s : σ} {as : List α} :
    S.Along cond l s as ↔ ∀ before a after t, as = before ++ a :: after →
      S.run s before = .ok t → cond (l ++ S.trace s before) t a := by
  refine ⟨fun h before a after t has hrun => ?_, along_of_prefix⟩
  subst has
  exact h.at_step hrun

/-- **Run rule** over the actions done so far. By induction on the run from its end. -/
theorem run_prefix_invariant {cond : List β → σ → α → Prop} {P : List α → σ → Prop} {l : List β}
    {s : σ} (h : P [] s)
    (hstep : ∀ done t a t', S.run s done = .ok t → P done t → cond (l ++ S.trace s done) t a →
      S.step t a = .ok t' → P (done ++ [a]) t')
    {as : List α} (halong : S.Along cond l s as) {s' : σ} (hrun : S.run s as = .ok s') : P as s' := by
  induction as using List.reverseRecOn generalizing s' with
  | nil =>
    obtain rfl := Except.ok.inj hrun
    exact h
  | append_singleton done a ih =>
    obtain ⟨t, hdone, hlast⟩ := run_append_eq_ok hrun
    obtain ⟨t', ha, hnil⟩ := run_cons_eq_ok hlast
    obtain rfl := Except.ok.inj hnil
    exact hstep done t a t' hdone (ih halong.append_left hdone) (halong.at_step hdone) ha

/-- Labels that do not depend on the state. -/
theorem trace_eq_flatMap {f : α → List β} (hf : ∀ s a, S.emit s a = f a) {s s' : σ}
    {as : List α} (hrun : S.run s as = .ok s') : S.trace s as = as.flatMap f := by
  induction as generalizing s with
  | nil => rfl
  | cons a as ih =>
    obtain ⟨t, hstep, hrest⟩ := run_cons_eq_ok hrun
    rw [trace_cons_ok hstep, hf, ih hrest, List.flatMap_cons]

/-- Every label of a trace was emitted by one of the steps. -/
theorem mem_trace {s s' : σ} {as : List α} {b : β} (hrun : S.run s as = .ok s')
    (hb : b ∈ S.trace s as) :
    ∃ before a after t t', as = before ++ a :: after ∧ S.run s before = .ok t ∧
      S.step t a = .ok t' ∧ b ∈ S.emit t a := by
  induction as generalizing s with
  | nil => exact absurd hb List.not_mem_nil
  | cons a as ih =>
    obtain ⟨t, hstep, hrest⟩ := run_cons_eq_ok hrun
    rw [trace_cons_ok hstep, List.mem_append] at hb
    rcases hb with hb | hb
    · exact ⟨[], a, as, s, t, rfl, rfl, hstep, hb⟩
    · obtain ⟨before, a', after, u, u', rfl, hbefore, hu, hmem⟩ := ih hrest hb
      exact ⟨a :: before, a', after, u, u', rfl, by rw [run_cons_ok hstep, hbefore], hu, hmem⟩

/-- **Simulation.** By induction on the actions: a system whose steps match those of
another one, and emit the same, matches its runs. -/
theorem run_simulation {τ : Type} {T : System τ α β ε} {R : σ → τ → Prop}
    {cond : List β → τ → α → Prop}
    (hstep : ∀ tr s t a, R s t → cond tr t a → ∃ s' t', S.step s a = .ok s' ∧
      T.step t a = .ok t' ∧ S.emit s a = T.emit t a ∧ R s' t')
    {l : List β} {s : σ} {t : τ} {as : List α} (h : R s t) (halong : T.Along cond l t as) :
    ∃ s' t', S.run s as = .ok s' ∧ T.run t as = .ok t' ∧ S.trace s as = T.trace t as ∧
      R s' t' := by
  induction as generalizing l s t with
  | nil => exact ⟨s, t, rfl, rfl, rfl, h⟩
  | cons a as ih =>
    obtain ⟨s₁, t₁, hs, ht, hemit, hR⟩ := hstep l s t a h halong.1
    obtain ⟨s', t', hs', ht', htrace, hR'⟩ := ih hR (halong.2 t₁ ht)
    refine ⟨s', t', by rw [run_cons_ok hs, hs'], by rw [run_cons_ok ht, ht'], ?_, hR'⟩
    rw [trace_cons_ok hs, trace_cons_ok ht, hemit, htrace]

/-- **Termination rule.** By induction on the measure: when every step that is taken
away from rest lowers it by `d`, every infinite schedule comes to rest within its
`d`-th part, or runs into a fault by then. -/
theorem run_comes_to_rest {μ : σ → Nat} {d : Nat} {R : σ → Prop} (hd : 0 < d)
    (hstep : ∀ s a s', ¬ R s → S.step s a = .ok s' → μ s' + d ≤ μ s) (s : σ)
    (as : Nat → α) :
    ∃ n s', d * n ≤ μ s ∧ S.run s ((List.range n).map as) = .ok s' ∧
      (R s' ∨ ∃ e, S.step s' (as n) = .error e) := by
  induction hμ : μ s using Nat.strong_induction_on generalizing s as with
  | _ m ih =>
    by_cases hrest : R s
    · exact ⟨0, s, Nat.zero_le _, rfl, .inl hrest⟩
    cases hs : S.step s (as 0) with
    | error e => exact ⟨0, s, Nat.zero_le _, rfl, .inr ⟨e, hs⟩⟩
    | ok t =>
      have hlower := hstep s (as 0) t hrest hs
      obtain ⟨n, s', hn, hrun, hend⟩ := ih (μ t) (by omega) t (fun i => as (i + 1)) rfl
      refine ⟨n + 1, s', ?_, ?_, hend⟩
      · rw [Nat.mul_succ]
        omega
      · rw [List.range_succ_eq_map, List.map_cons, List.map_map, run_cons_ok hs]
        exact hrun

end System

/-! ## Histories of writes -/

namespace History

variable {κ ν : Type} [DecidableEq κ]

/-- The value of the last entry for a key. -/
def last (k : κ) (h : List (κ × ν)) : Option ν :=
  h.foldl (fun v e => if k = e.1 then some e.2 else v) none

@[simp] theorem last_nil (k : κ) : last k ([] : List (κ × ν)) = none := rfl

/-- One more entry changes the last value of its own key. -/
theorem last_append_singleton (k : κ) (h : List (κ × ν)) (e : κ × ν) :
    last k (h ++ [e]) = if k = e.1 then some e.2 else last k h := by
  rw [last, List.foldl_append]
  rfl

/-- The last value was written. -/
theorem last_mem {k : κ} {h : List (κ × ν)} {v : ν} (hv : last k h = some v) : (k, v) ∈ h := by
  induction h using List.reverseRecOn with
  | nil => exact absurd hv (by simp)
  | append_singleton h e ih =>
    rw [last_append_singleton] at hv
    rw [List.mem_append, List.mem_singleton]
    by_cases hk : k = e.1
    · rw [if_pos hk] at hv
      exact Or.inr (Prod.ext hk (Option.some.inj hv).symm)
    · rw [if_neg hk] at hv
      exact Or.inl (ih hv)

/-- A key that was written has a last value. -/
theorem last_isSome {k : κ} {v : ν} {h : List (κ × ν)} (hmem : (k, v) ∈ h) :
    ∃ w, last k h = some w := by
  induction h using List.reverseRecOn with
  | nil => exact absurd hmem List.not_mem_nil
  | append_singleton h e ih =>
    rw [last_append_singleton]
    by_cases hk : k = e.1
    · exact ⟨e.2, if_pos hk⟩
    · rw [if_neg hk]
      rw [List.mem_append, List.mem_singleton] at hmem
      rcases hmem with hmem | rfl
      · exact ih hmem
      · exact absurd rfl hk

/-- The later history decides, if it has the key. -/
theorem last_append (k : κ) (h h' : List (κ × ν)) : last k (h ++ h') = (last k h').or (last k h) := by
  induction h' using List.reverseRecOn with
  | nil => rw [List.append_nil, last_nil, Option.none_or]
  | append_singleton h' e ih =>
    rw [← List.append_assoc, last_append_singleton, last_append_singleton, ih]
    split <;> rfl

/-- The order of entries does not matter when no key has two values. -/
theorem last_perm {h h' : List (κ × ν)} (hperm : h.Perm h')
    (hone : ∀ k v u, (k, v) ∈ h → (k, u) ∈ h → v = u) (k : κ) : last k h = last k h' := by
  have hle : ∀ a b : List (κ × ν), a.Perm b → (∀ v u, (k, v) ∈ a → (k, u) ∈ a → v = u) →
      ∀ v, last k a = some v → last k b = some v := by
    intro a b hab hone v hv
    obtain ⟨u, hu⟩ := last_isSome (hab.mem_iff.mp (last_mem hv))
    rw [hu, hone v u (last_mem hv) (hab.mem_iff.mpr (last_mem hu))]
  apply Option.ext
  intro v
  refine ⟨hle h h' hperm (hone k) v, hle h' h hperm.symm (fun v u hv hu => ?_) v⟩
  exact hone k v u (hperm.mem_iff.mpr hv) (hperm.mem_iff.mpr hu)

end History
