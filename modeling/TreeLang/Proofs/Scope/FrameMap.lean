import TreeLang.Proofs.Scope.Discipline

/-!
# Scopes changed frame by frame

A change of the frames of a scope, each by itself, may give other names to what is bound and may
turn the functions into others. If what is read from a changed frame and what is written to it
corresponds to what is read from the frame and written to it (`FrameMap`), then the same holds of
the scope as a whole: looking up, declaring, assigning and defining in the changed scope do what
corresponds to their doing in the scope.
-/

set_option autoImplicit false

namespace TreeLang

/-- A change `φ` of frames that goes with new names `r` for variables and `s` for functions, and
with the change `g` of the functions. -/
structure FrameMap (φ : Frame → Frame) (r s : Text → Text) (g : Function → Function) : Prop where
  getVar : ∀ f x, (φ f).vars.get? (r x) = f.vars.get? x
  getFunc : ∀ f x, (φ f).funcs.get? (s x) = (f.funcs.get? x).map g
  setVar : ∀ f x v, { φ f with vars := (φ f).vars.set (r x) v } =
    φ { f with vars := f.vars.set x v }
  setFunc : ∀ f x h, { φ f with funcs := (φ f).funcs.set (s x) (g h) } =
    φ { f with funcs := f.funcs.set x h }

namespace FrameMap

variable {φ : Frame → Frame} {r s : Text → Text} {g : Function → Function}

theorem bindsVar (M : FrameMap φ r s g) (f : Frame) (x : Text) :
    (φ f).vars.binds (r x) = f.vars.binds x := by
  unfold Bindings.binds
  rw [M.getVar]

theorem bindsFunc (M : FrameMap φ r s g) (f : Frame) (x : Text) :
    (φ f).funcs.binds (s x) = f.funcs.binds x := by
  unfold Bindings.binds
  rw [M.getFunc, Option.isSome_map]

/-- Frames answer alike to a declaration, under the new names. -/
theorem declareVar? (M : FrameMap φ r s g) (f : Frame) (x : Text) (v : Int64) :
    (φ f).declare? (r x) v = (f.declare? x v).map φ := by
  unfold Frame.declare?
  rw [M.bindsVar, M.setVar]
  by_cases hx : f.vars.binds x
  · simp [hx]
  · simp [hx]

/-- Scopes answer alike to the reading of a variable, under the new names. -/
theorem lookup? (M : FrameMap φ r s g) (c : Chain) (x : Text) :
    Chain.lookup? (c.map φ) (r x) = c.lookup? x := by
  induction c with
  | nil => rfl
  | cons f up ih =>
    rw [List.map_cons, Chain.lookup?, M.getVar, ih]
    rfl

/-- Scopes answer alike to the finding of a function, under the new names. -/
theorem lookupFunc? (M : FrameMap φ r s g) (c : Chain) (x : Text) :
    Chain.lookupFunc? (c.map φ) (s x) = (c.lookupFunc? x).map g := by
  induction c with
  | nil => rfl
  | cons f up ih =>
    rw [List.map_cons, Chain.lookupFunc?, Chain.lookupFunc?, M.getFunc, ih]
    cases f.funcs.get? x <;> rfl

/-- A declaration commutes with the map. -/
theorem declare? (M : FrameMap φ r s g) (c : Chain) (x : Text) (v : Int64) :
    Chain.declare? (c.map φ) (r x) v = (c.declare? x v).map (List.map φ) := by
  cases c with
  | nil => rfl
  | cons f up =>
    rw [List.map_cons, Chain.declare?, Chain.declare?, M.declareVar?]
    cases f.declare? x v <;> rfl

/-- An assignment commutes with the map. -/
theorem assign? (M : FrameMap φ r s g) (c : Chain) (x : Text) (v : Int64) :
    Chain.assign? (c.map φ) (r x) v = (c.assign? x v).map (List.map φ) := by
  induction c with
  | nil => rfl
  | cons f up ih =>
    rw [List.map_cons, Chain.assign?, Chain.assign?, M.bindsVar, M.setVar, ih]
    by_cases hx : f.vars.binds x
    · simp only [if_pos hx]
      rfl
    · simp only [if_neg hx]
      cases Chain.assign? up x v <;> rfl

theorem replaceFunc? (M : FrameMap φ r s g) (c : Chain) (x : Text) (h : Function) :
    Chain.replaceFunc? (c.map φ) (s x) (g h) = (c.replaceFunc? x h).map (List.map φ) := by
  induction c with
  | nil => rfl
  | cons f up ih =>
    rw [List.map_cons, Chain.replaceFunc?, Chain.replaceFunc?, M.bindsFunc, M.setFunc, ih]
    by_cases hx : f.funcs.binds x
    · simp only [if_pos hx]
      rfl
    · simp only [if_neg hx]
      cases Chain.replaceFunc? up x h <;> rfl

theorem addFunc (M : FrameMap φ r s g) (c : Chain) (x : Text) (h : Function) :
    Chain.addFunc (c.map φ) (s x) (g h) = (c.addFunc x h).map φ := by
  cases c with
  | nil => rfl
  | cons f up => exact congrArg (· :: up.map φ) (M.setFunc f x h)

/-- A definition commutes with the map. -/
theorem defineFunc (M : FrameMap φ r s g) (c : Chain) (x : Text) (h : Function) :
    Chain.defineFunc (c.map φ) (s x) (g h) = (c.defineFunc x h).map φ := by
  unfold Chain.defineFunc
  rw [M.replaceFunc?, M.addFunc]
  cases c.replaceFunc? x h <;> rfl

end FrameMap

end TreeLang
