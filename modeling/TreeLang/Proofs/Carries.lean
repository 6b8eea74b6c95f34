import TreeLang.Proofs.Leads

/-!
# What a computation does to its state

`Carries R x` says of a computation with a state and errors that the state it leaves is related by
`R` to the one it found, whether it succeeds or fails. When `R` is reflexive and transitive, a
computation that is put together of such parts is such a computation. So `Carries` is a class: the
instances follow the structure of a program, and one for each function is all that has to be stated.
`Answers P x` says in the same way that the answers of a computation satisfy `P`.
-/

set_option autoImplicit false

namespace TreeLang

variable {ε σ α β : Type}

/-- The state that a result comes with. -/
def stateOf : EStateM.Result ε σ α → σ
  | .ok _ s => s
  | .error _ s => s

/-- From the state `s`, a computation leaves a state as `R` allows, be it successful or not. -/
def Leaves (R : σ → σ → Prop) (s : σ) (x : EStateM ε σ α) : Prop := R s (stateOf (x s))

/-- From every state, a computation leaves a state as `R` allows. -/
class Carries (R : σ → σ → Prop) (x : EStateM ε σ α) : Prop where
  leaves : ∀ s, Leaves R s x

/-- The answers of a computation satisfy `P`. -/
class Answers (P : α → Prop) (x : EStateM ε σ α) : Prop where
  leads : ∀ s, Leads True x s fun a _ => P a

/-! ## From one state

Where a computation writes a state that it has read before, what it does depends on the state it
starts in. -/

section Leaves

variable {R : σ → σ → Prop} {s : σ}

theorem leaves_of_carries (x : EStateM ε σ α) [h : Carries R x] : Leaves R s x := h.leaves s

/-- The second part of a computation need only behave well where the first part leads. -/
theorem Leaves.bind_leads [IsTrans σ R] {Q : β → σ → Prop} {x : EStateM ε σ β} {f : β → EStateM ε σ α}
    (hx : Leaves R s x) (hq : Leads True x s Q) (hf : ∀ a s', Q a s' → Leaves R s' (f a)) :
    Leaves R s (x >>= f) := by
  show R s (stateOf (EStateM.bind x f s))
  unfold Leads at hq
  unfold Leaves at hx
  unfold EStateM.bind
  cases hr : x s with
  | error e s' =>
    rw [hr] at hx
    exact hx
  | ok a s' =>
    rw [hr] at hx hq
    exact IsTrans.trans _ _ _ hx (hf a s' hq)

/-- A computation that leaves every state as `R` allows leads to such states. -/
theorem Leaves.leads {x : EStateM ε σ α} (h : Leaves R s x) : Leads True x s fun _ s' => R s s' := by
  unfold Leaves at h
  unfold Leads
  cases hr : x s with
  | error e s' => trivial
  | ok a s' =>
    rw [hr] at h
    exact h

/-- Nothing is claimed of an answer. -/
theorem answers_true (x : EStateM ε σ α) : Answers (fun _ => True) x := by
  refine ⟨fun s => ?_⟩
  unfold Leads
  split <;> trivial

/-- The second part may start from any state. -/
theorem Leaves.bind [IsTrans σ R] {x : EStateM ε σ β} {f : β → EStateM ε σ α} (hx : Leaves R s x)
    (hf : ∀ a, Carries R (f a)) : Leaves R s (x >>= f) :=
  hx.bind_leads ((answers_true x).leads s) fun a s' _ => (hf a).leaves s'

/-- A computation that reads the state goes on with it. -/
theorem leaves_get_bind {f : σ → EStateM ε σ α} : Leaves R s (get >>= f) ↔ Leaves R s (f s) := Iff.rfl

theorem leaves_set {s' : σ} (h : R s s') : Leaves R s (set s' : EStateM ε σ PUnit) := h

/-- A state that is written is as `R` allows, and so is the one that is left from there. -/
theorem leaves_set_bind [IsTrans σ R] {s' : σ} {f : PUnit → EStateM ε σ α} (h : R s s')
    (hf : Leaves R s' (f ⟨⟩)) : Leaves R s (set s' >>= f) := IsTrans.trans _ _ _ h hf

end Leaves

/-! ## From every state -/

section Carries

variable {R : σ → σ → Prop}

instance carries_pure [Std.Refl R] (a : α) : Carries R (pure a : EStateM ε σ α) :=
  ⟨fun s => Std.Refl.refl s⟩

instance carries_throw [Std.Refl R] (e : ε) : Carries R (throw e : EStateM ε σ α) :=
  ⟨fun s => Std.Refl.refl s⟩

instance carries_get [Std.Refl R] : Carries R (get : EStateM ε σ σ) :=
  ⟨fun s => Std.Refl.refl s⟩

/-- It is enough to look at the computation from the state that was read. -/
theorem carries_get_bind {f : σ → EStateM ε σ α} (h : ∀ s, Leaves R s (f s)) :
    Carries R (get >>= f) := ⟨h⟩

theorem carries_modify {f : σ → σ} (h : ∀ s, R s (f s)) :
    Carries R (modify f : EStateM ε σ PUnit) := ⟨h⟩

theorem carries_modifyGet {f : σ → α × σ} (h : ∀ s, R s (f s).2) :
    Carries R (modifyGet f : EStateM ε σ α) := ⟨h⟩

/-- The second part need only behave well for answers of the first one. -/
theorem Carries.bind_answers [IsTrans σ R] {Q : β → Prop} {x : EStateM ε σ β} {f : β → EStateM ε σ α}
    (hx : Carries R x) (hq : Answers Q x) (hf : ∀ a, Q a → Carries R (f a)) : Carries R (x >>= f) :=
  ⟨fun s => (hx.leaves s).bind_leads (hq.leads s) fun a s' ha => (hf a ha).leaves s'⟩

theorem Carries.bind [IsTrans σ R] {x : EStateM ε σ β} {f : β → EStateM ε σ α} (hx : Carries R x)
    (hf : ∀ a, Carries R (f a)) : Carries R (x >>= f) :=
  ⟨fun s => (hx.leaves s).bind hf⟩

instance carries_bind [IsTrans σ R] (x : EStateM ε σ β) (f : β → EStateM ε σ α) [hx : Carries R x]
    [hf : ∀ a, Carries R (f a)] : Carries R (x >>= f) := hx.bind hf

instance carries_ite (c : Prop) [Decidable c] (x y : EStateM ε σ α) [hx : Carries R x]
    [hy : Carries R y] : Carries R (if c then x else y) := by
  split
  · exact hx
  · exact hy

/-- A part that is run under a condition, such as a failure, in front of what comes in either
case. -/
theorem Carries.when [IsTrans σ R] {c : Prop} [Decidable c] {x : EStateM ε σ PUnit}
    {f : PUnit → EStateM ε σ α} (hx : Carries R x) (hf : Carries R (f ⟨⟩)) :
    Carries R (if c then x >>= f else f ⟨⟩) := by
  split
  · exact hx.bind fun _ => hf
  · exact hf

instance (priority := high) carries_when [IsTrans σ R] (c : Prop) [Decidable c]
    (x : EStateM ε σ PUnit) (f : PUnit → EStateM ε σ α) [hx : Carries R x] [hf : Carries R (f ⟨⟩)] :
    Carries R (if c then x >>= f else f ⟨⟩) := hx.when hf

end Carries

/-! ## Answers -/

section Answers

variable {P : α → Prop}

theorem answers_pure {a : α} (h : P a) : Answers P (pure a : EStateM ε σ α) := ⟨fun _ => h⟩

/-- What the second part answers may depend on what the first one does. -/
theorem Answers.bind {Q : β → Prop} {x : EStateM ε σ β} {f : β → EStateM ε σ α} (hx : Answers Q x)
    (hf : ∀ a, Q a → Answers P (f a)) : Answers P (x >>= f) := by
  refine ⟨fun s => ?_⟩
  rw [leads_bind]
  exact (hx.leads s).mono fun a s' ha => (hf a ha).leads s'

/-- What a computation answers in the end need not depend on the answers before. -/
instance answers_bind (x : EStateM ε σ β) (f : β → EStateM ε σ α) [hf : ∀ a, Answers P (f a)] :
    Answers P (x >>= f) := (answers_true x).bind fun a _ => hf a

instance answers_ite (c : Prop) [Decidable c] (x y : EStateM ε σ α) [hx : Answers P x]
    [hy : Answers P y] : Answers P (if c then x else y) := by
  split
  · exact hx
  · exact hy

/-- A part that is run under a condition does not matter for the answer of what comes after it. -/
instance (priority := high) answers_when (c : Prop) [Decidable c] (x : EStateM ε σ PUnit)
    (f : PUnit → EStateM ε σ α) [hf : Answers P (f ⟨⟩)] :
    Answers P (if c then x >>= f else f ⟨⟩) := by
  split
  · exact (answers_true x).bind fun _ _ => hf
  · exact hf

end Answers

end TreeLang
