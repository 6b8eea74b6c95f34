import Mathlib

/-!
# Where a computation leads

`Leads b x s Q` says of a computation with a state and errors that from `s` it reaches an answer and
a state as `Q` wants them, or that it fails, if `b` allows that. So `Leads False` is the statement
that a computation succeeds, and `Leads True` speaks of its successes only. Both are carried through
a computation step by step with the same rules.
-/

set_option autoImplicit false

namespace TreeLang

variable {ε σ α β : Type}

/-- Run from `s`, a computation reaches an answer and a state that satisfy `Q`, or fails if `b`. -/
def Leads (b : Prop) (x : EStateM ε σ α) (s : σ) (Q : α → σ → Prop) : Prop :=
  match x s with
  | .ok a s' => Q a s'
  | .error _ _ => b

namespace Leads

variable {b : Prop} {s : σ} {x : EStateM ε σ α} {P Q : α → σ → Prop}

/-- A computation leads where it ends. -/
theorem of_ok {a : α} {s' : σ} (h : x s = .ok a s') (hq : Q a s') : Leads b x s Q := by
  unfold Leads
  rw [h]
  exact hq

/-- A computation that must not fail reaches what it leads to. -/
theorem exists_ok (h : Leads False x s Q) : ∃ a s', x s = .ok a s' ∧ Q a s' := by
  unfold Leads at h
  split at h
  · rename_i a s' heq
    exact ⟨a, s', heq, h⟩
  · exact h.elim

/-- Where something holds, what follows from it holds. -/
theorem mono (h : Leads b x s P) (hpq : ∀ a s', P a s' → Q a s') : Leads b x s Q := by
  unfold Leads at h ⊢
  split at h
  · exact hpq _ _ h
  · exact h

/-- Two things that hold where a computation leads hold there together. -/
theorem and (h : Leads b x s P) (k : Leads b x s Q) : Leads b x s fun a s' => P a s' ∧ Q a s' := by
  unfold Leads at h k ⊢
  cases hr : x s with
  | error e s' =>
    rw [hr] at h
    exact h
  | ok a s' =>
    rw [hr] at h k
    exact ⟨h, k⟩

end Leads

section Rules

variable {b : Prop} {s : σ} {Q : α → σ → Prop}

@[simp] theorem leads_pure (a : α) : Leads b (pure a : EStateM ε σ α) s Q ↔ Q a s := Iff.rfl

/-- Two computations one after the other lead where the second one does, from where the first one
leads. -/
@[simp] theorem leads_bind (x : EStateM ε σ β) (f : β → EStateM ε σ α) :
    Leads b (x >>= f) s Q ↔ Leads b x s fun a s' => Leads b (f a) s' Q := by
  show Leads b (EStateM.bind x f) s Q ↔ _
  unfold Leads EStateM.bind
  cases x s <;> exact Iff.rfl

@[simp] theorem leads_get {Q : σ → σ → Prop} : Leads b (get : EStateM ε σ σ) s Q ↔ Q s s := Iff.rfl

@[simp] theorem leads_set {Q : PUnit → σ → Prop} (s' : σ) :
    Leads b (set s' : EStateM ε σ PUnit) s Q ↔ Q ⟨⟩ s' := Iff.rfl

@[simp] theorem leads_modify {Q : PUnit → σ → Prop} (f : σ → σ) :
    Leads b (modify f : EStateM ε σ PUnit) s Q ↔ Q ⟨⟩ (f s) := Iff.rfl

@[simp] theorem leads_modifyGet (f : σ → α × σ) :
    Leads b (modifyGet f : EStateM ε σ α) s Q ↔ Q (f s).1 (f s).2 := Iff.rfl

end Rules

end TreeLang
