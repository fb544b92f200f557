import Mathlib

/-!
# Outcomes of computations that may stop

`x.Post P F` says that the computation `x` returns a result with `P` or stops with a fault
in `F`. The rules follow the program text: `Post.bind` for a sequence, `Post.foldlM` for a
loop with an invariant. With no fault allowed, `post_false_iff` turns the outcome into a
result.

Both halves matter. A statement about results alone is true of a computation that always
stops; a statement that there is a result cannot be made where an environment may fail, as
with a disk that is full. `Post` names the faults that remain, and every rule passes them
on.
-/

namespace Except

variable {ε α β : Type}

/-! ## Sequences -/

@[simp] theorem pure_eq_ok (a : α) : (pure a : Except ε α) = .ok a := rfl

@[simp] theorem ok_bind (a : α) (f : α → Except ε β) : (Except.ok a >>= f) = f a := rfl

@[simp] theorem error_bind (e : ε) (f : α → Except ε β) :
    ((Except.error e : Except ε α) >>= f) = .error e := rfl

/-- A sequence succeeds exactly when both of its parts do. -/
theorem bind_eq_ok_iff {x : Except ε α} {f : α → Except ε β} {b : β} :
    (x >>= f) = .ok b ↔ ∃ a, x = .ok a ∧ f a = .ok b := by
  cases x with
  | error e => simp
  | ok a => simp

/-- So does a computation followed by a function. -/
theorem map_eq_ok_iff {x : Except ε α} {f : α → β} {b : β} :
    x.map f = .ok b ↔ ∃ a, x = .ok a ∧ f a = b := by
  cases x with
  | error e => simp [Except.map]
  | ok a => simp [Except.map]

/-- A computation that does not stop has a result. -/
theorem exists_eq_ok {x : Except ε α} (h : x.isOk = true) : ∃ a, x = .ok a := by
  cases x with
  | error e => exact absurd h (by simp [Except.isOk, Except.toBool])
  | ok a => exact ⟨a, rfl⟩

/-- The results of a loop are the results of its steps. -/
theorem mem_of_mapM {f : α → Except ε β} {as : List α} {bs : List β} (h : as.mapM f = .ok bs)
    (b : β) : b ∈ bs ↔ ∃ a ∈ as, f a = .ok b := by
  induction as generalizing bs with
  | nil =>
    rw [List.mapM_nil] at h
    obtain rfl := Except.ok.inj h
    simp
  | cons a as ih =>
    rw [List.mapM_cons] at h
    obtain ⟨c, hc, h⟩ := bind_eq_ok_iff.mp h
    obtain ⟨cs, hcs, h⟩ := bind_eq_ok_iff.mp h
    obtain rfl := Except.ok.inj h
    rw [List.mem_cons, List.exists_mem_cons_iff, ih hcs, hc, Except.ok.injEq, eq_comm]

/-- A loop whose steps all return a result. -/
theorem exists_mapM {f : α → Except ε β} {as : List α} (h : ∀ a ∈ as, ∃ b, f a = .ok b) :
    ∃ bs, as.mapM f = .ok bs := by
  induction as with
  | nil => exact ⟨[], rfl⟩
  | cons a as ih =>
    obtain ⟨⟨b, hb⟩, hrest⟩ := List.forall_mem_cons.mp h
    obtain ⟨bs, hbs⟩ := ih hrest
    rw [List.mapM_cons, hb, ok_bind, hbs]
    exact ⟨b :: bs, rfl⟩

/-- Whether a computation returns a result with `P` is decided by running it. -/
instance decidableExistsOk {x : Except ε α} {P : α → Prop} [DecidablePred P] :
    Decidable (∃ a, x = .ok a ∧ P a) :=
  match x with
  | .ok a => decidable_of_iff (P a)
      ⟨fun h => ⟨a, rfl, h⟩, fun ⟨_, hb, h⟩ => (Except.ok.inj hb).symm ▸ h⟩
  | .error _ => isFalse (by simp)

/-- So is whether every result, if there is one, has `P`. -/
instance decidableForallOk {x : Except ε α} {P : α → Prop} [DecidablePred P] :
    Decidable (∀ a, x = .ok a → P a) :=
  match x with
  | .ok a => decidable_of_iff (P a)
      ⟨fun h _ hb => Except.ok.inj hb ▸ h, fun h => h a rfl⟩
  | .error _ => isTrue (by simp)

/-! ## Rules for outcomes -/

variable {P : α → Prop} {Q : β → Prop} {F : ε → Prop}

/-- Returns a result with `P`, or stops with a fault in `F`. -/
def Post (x : Except ε α) (P : α → Prop) (F : ε → Prop) : Prop :=
  match x with
  | .ok a => P a
  | .error e => F e

@[simp] theorem post_ok {a : α} : (Except.ok a : Except ε α).Post P F ↔ P a := Iff.rfl

@[simp] theorem post_error {e : ε} : (Except.error e : Except ε α).Post P F ↔ F e := Iff.rfl

/-- With no fault allowed there is a result. -/
theorem post_false_iff {x : Except ε α} :
    x.Post P (fun _ => False) ↔ ∃ a, x = .ok a ∧ P a := by
  cases x with
  | ok a => simp
  | error e => simp

/-- What holds of an outcome holds of a result. -/
theorem Post.result {x : Except ε α} (h : x.Post P F) {a : α} (ha : x = .ok a) : P a := by
  rw [ha] at h
  exact h

/-- Consequence rule; the result itself may be used. -/
theorem Post.imp {x : Except ε α} {P' : α → Prop} (h : x.Post P F)
    (hP : ∀ a, x = .ok a → P a → P' a) : x.Post P' F := by
  cases x with
  | ok a => exact hP a rfl h
  | error e => exact h

/-- Sequence rule. -/
theorem Post.bind {x : Except ε α} {f : α → Except ε β} (hx : x.Post P F)
    (hf : ∀ a, P a → (f a).Post Q F) : (x >>= f).Post Q F := by
  cases x with
  | ok a => exact hf a hx
  | error e => exact hx

/-- A function applied to a result adds no fault. -/
theorem Post.map {x : Except ε α} (hx : x.Post (fun _ => True) F) (f : α → β) :
    (x.map f).Post (fun _ => True) F := by
  cases x with
  | ok a => trivial
  | error e => exact hx

/-- Loop rule: every round keeps the invariant or stops with an allowed fault. -/
theorem Post.foldlM {f : α → β → Except ε α} {xs : List β}
    (hstep : ∀ acc x, x ∈ xs → P acc → (f acc x).Post P F) {acc : α} (h : P acc) :
    (xs.foldlM f acc).Post P F := by
  induction xs generalizing acc with
  | nil => exact h
  | cons x xs ih =>
    rw [List.foldlM_cons]
    apply Post.bind (hstep acc x (List.mem_cons_self ..) h)
    intro next hnext
    exact ih (fun a y hy ha => hstep a y (List.mem_cons_of_mem _ hy) ha) hnext

end Except
