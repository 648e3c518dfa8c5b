/-!
# Answers one after another

Where a computation goes on with the answer of another one, its answer comes from both, and its
fault from the first of them that has one.
-/

namespace Abacus.Answer

variable {ε α β : Type}

@[simp] theorem pure_eq_ok (a : α) : (pure a : Except ε α) = .ok a := rfl

@[simp] theorem ok_bind (a : α) (f : α → Except ε β) : (Except.ok a >>= f) = f a := rfl

@[simp] theorem error_bind (x : ε) (f : α → Except ε β) :
    (Except.error x >>= f) = .error x := rfl

theorem bind_eq_ok {m : Except ε α} {f : α → Except ε β} {b : β} :
    (m >>= f) = .ok b ↔ ∃ a, m = .ok a ∧ f a = .ok b := by
  cases m with
  | error x => simp
  | ok a => simp

/-- A change of faults goes into every part of a computation. -/
theorem mapError_bind {δ : Type} (h : ε → δ) (m : Except ε α) (f : α → Except ε β) :
    (m >>= f).mapError h = m.mapError h >>= fun a => (f a).mapError h := by
  cases m <;> rfl

/-- What a computation fails with, if it fails. -/
def fault? : Except ε α → Option ε
  | .ok _ => none
  | .error x => some x

@[simp] theorem fault?_ok (a : α) : fault? (.ok a : Except ε α) = none := rfl

@[simp] theorem fault?_error (x : ε) : fault? (.error x : Except ε α) = some x := rfl

theorem fault?_eq_some {m : Except ε α} {x : ε} : fault? m = some x ↔ m = .error x := by
  cases m <;> simp [fault?]

/-- Where the fault of what follows does not depend on the answer, the first fault is the fault. -/
theorem fault?_bind {m : Except ε α} {f : α → Except ε β} {x? : Option ε}
    (h : ∀ a, fault? (f a) = x?) : fault? (m >>= f) = (fault? m).or x? := by
  cases m with
  | error x => rfl
  | ok a => exact h a

theorem fault?_bind_pure (m : Except ε α) (f : α → β) :
    fault? (m >>= fun a => pure (f a)) = fault? m := by
  cases m <;> rfl

/-- Two computations whose answers are put together. -/
theorem fault?_both {γ : Type} (x : Except ε α) (y : Except ε β) (f : α → β → γ) :
    fault? (do
      let a ← x
      let b ← y
      return f a b) = (fault? x).or (fault? y) :=
  fault?_bind fun a => fault?_bind_pure y (f a)

/-- Every answer is one of the two kinds. -/
theorem not_ok_iff {m : Except ε α} : (¬∃ a, m = .ok a) ↔ ∃ x, m = .error x := by
  cases m with
  | error x => simp
  | ok a => simp

/-- The computation has an answer just where `good` holds, and has the given fault elsewhere. -/
structure Decides (m : Except ε α) (good : Prop) (x? : Option ε) : Prop where
  succeeds : (∃ a, m = .ok a) ↔ good
  fails : ¬good → ∃ x, x? = some x ∧ m = .error x

theorem decides_of_fault? {m : Except ε α} {good : Prop} {x? : Option ε} (h : fault? m = x?)
    (hx : x? = none ↔ good) : Decides m good x? := by
  rw [← hx, ← h]
  cases m with
  | error x => exact ⟨by simp, fun _ => ⟨x, rfl, rfl⟩⟩
  | ok a => exact ⟨by simp, fun hgood => absurd rfl hgood⟩

theorem Decides.eq_error {m : Except ε α} {good : Prop} {x : ε} (h : Decides m good (some x))
    (hgood : ¬good) : m = .error x := by
  obtain ⟨y, hy, hm⟩ := h.fails hgood
  rw [hm, Option.some.inj hy]

end Abacus.Answer
