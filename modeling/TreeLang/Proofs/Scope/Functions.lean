import TreeLang.Proofs.Scope.Discipline

/-!
# What holds of the functions of a scope

A run writes to a scope what it finds in trees. So a statement that holds of every function that a
scope binds holds of them still when variables are declared and assigned, and when functions are
defined of which it holds as well (`Chain.EachFunc`).
-/

set_option autoImplicit false

namespace TreeLang

variable {Q : Function → Prop}

/-- `Q` holds of the functions that a frame binds. -/
def Frame.EachFunc (Q : Function → Prop) (f : Frame) : Prop := ∀ x g, f.funcs.get? x = some g → Q g

namespace Frame.EachFunc

/-- What holds of everything a frame has under some name holds of what it binds. -/
theorem of_forall_mem {f : Frame} (h : ∀ b ∈ f.funcs, Q b.2) : f.EachFunc Q := by
  intro x g hg
  obtain ⟨bs, bs', hfuncs, -⟩ := List.lookup_eq_some_iff.1 hg
  apply h (x, g)
  simp [hfuncs]

theorem declare? {f f' : Frame} {x : Text} {v : Int64} (h : f.EachFunc Q)
    (hf : f.declare? x v = some f') : f'.EachFunc Q := by
  unfold Frame.declare? at hf
  by_cases hx : f.vars.binds x
  · rw [if_pos hx] at hf
    cases hf
  · rw [if_neg hx] at hf
    cases hf
    exact h

theorem setFunc {f : Frame} {x : Text} {g : Function} (h : f.EachFunc Q) (hg : Q g) :
    Frame.EachFunc Q { f with funcs := f.funcs.set x g } := by
  intro y g' hy
  rw [Bindings.get?_set] at hy
  split at hy
  · cases hy
    exact hg
  · exact h y g' hy

end Frame.EachFunc

namespace Chain

/-- `Q` holds of the functions that a scope binds. -/
def EachFunc (Q : Function → Prop) (c : Chain) : Prop := ∀ f ∈ c, f.EachFunc Q

/-- A new frame has no functions. -/
theorem eachFunc_child (c : Chain) : c.child.EachFunc Q := by
  intro x g h
  cases h

namespace EachFunc

theorem cons {c : Chain} {f : Frame} (hf : f.EachFunc Q) (h : c.EachFunc Q) : EachFunc Q (f :: c) :=
  List.forall_mem_cons.2 ⟨hf, h⟩

theorem tail {c : Chain} (h : c.EachFunc Q) : EachFunc Q c.tail :=
  fun f hf => h f (List.mem_of_mem_tail hf)

/-- A function that is found is one of the scope. -/
theorem lookupFunc? {x : Text} {g : Function} :
    ∀ {c : Chain}, c.EachFunc Q → c.lookupFunc? x = some g → Q g
  | [], _, hg => by cases hg
  | f :: up, h, hg => by
    obtain ⟨hf, hup⟩ := List.forall_mem_cons.1 h
    unfold Chain.lookupFunc? at hg
    cases hx : f.funcs.get? x with
    | some g' =>
      rw [hx] at hg
      cases hg
      exact hf x g hx
    | none =>
      rw [hx] at hg
      exact lookupFunc? hup hg

theorem declare? {c d : Chain} {x : Text} {v : Int64} (h : c.EachFunc Q)
    (hd : c.declare? x v = some d) : d.EachFunc Q := by
  cases c with
  | nil => cases hd
  | cons f up =>
    obtain ⟨hf, hup⟩ := List.forall_mem_cons.1 h
    obtain ⟨f', hf', rfl⟩ := Option.map_eq_some_iff.1 hd
    exact cons (hf.declare? hf') hup

/-- An assignment changes no function. -/
theorem assign? {x : Text} {v : Int64} :
    ∀ {c d : Chain}, c.EachFunc Q → c.assign? x v = some d → d.EachFunc Q
  | [], _, _, hd => by cases hd
  | f :: up, d, h, hd => by
    obtain ⟨hf, hup⟩ := List.forall_mem_cons.1 h
    unfold Chain.assign? at hd
    by_cases hx : f.vars.binds x
    · rw [if_pos hx] at hd
      cases hd
      exact cons hf hup
    · rw [if_neg hx] at hd
      obtain ⟨up', hup', rfl⟩ := Option.map_eq_some_iff.1 hd
      exact cons hf (assign? hup hup')

theorem replaceFunc? {x : Text} {g : Function} (hg : Q g) :
    ∀ {c d : Chain}, c.EachFunc Q → c.replaceFunc? x g = some d → d.EachFunc Q
  | [], _, _, hd => by cases hd
  | f :: up, d, h, hd => by
    obtain ⟨hf, hup⟩ := List.forall_mem_cons.1 h
    unfold Chain.replaceFunc? at hd
    by_cases hx : f.funcs.binds x
    · rw [if_pos hx] at hd
      cases hd
      exact cons (hf.setFunc hg) hup
    · rw [if_neg hx] at hd
      obtain ⟨up', hup', rfl⟩ := Option.map_eq_some_iff.1 hd
      exact cons hf (replaceFunc? hg hup hup')

theorem addFunc {c : Chain} {x : Text} {g : Function} (hg : Q g) (h : c.EachFunc Q) :
    EachFunc Q (c.addFunc x g) := by
  cases c with
  | nil => exact h
  | cons f up =>
    obtain ⟨hf, hup⟩ := List.forall_mem_cons.1 h
    exact cons (hf.setFunc hg) hup

/-- A definition adds one function, for which the property is given. -/
theorem defineFunc {c : Chain} {x : Text} {g : Function} (hg : Q g) (h : c.EachFunc Q) :
    EachFunc Q (c.defineFunc x g) := by
  unfold Chain.defineFunc
  cases hr : c.replaceFunc? x g with
  | some d => exact replaceFunc? hg h hr
  | none => exact addFunc hg h

end EachFunc

end Chain

end TreeLang
