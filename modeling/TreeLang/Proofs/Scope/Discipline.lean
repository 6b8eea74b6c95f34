import TreeLang.Proofs.Eval.Course

/-!
# Which frames a run may change, and how

Declaring, assigning and defining each write to one frame of the chain: the current one, the nearest
that binds the variable, or the nearest that binds the function. Only the current frame can gain a
name by this, no frame ever loses one, and no frame changes its sink (`Chain.Disciplined`). A frame
that is entered lies below all these frames and is gone when it is left, so a run of any tree obeys
the same discipline (`Eval.disciplined_course`).
-/

set_option autoImplicit false

namespace TreeLang

/-! ## Bindings -/

namespace Bindings

variable {α : Type}

theorem get?_cons (y : Text) (a : α) (r : Bindings α) (x : Text) :
    get? ((y, a) :: r) x = if x = y then some a else get? r x := by
  unfold get?
  rw [List.lookup_cons]
  by_cases h : x = y
  · rw [if_pos h, beq_iff_eq.2 h]
  · rw [if_neg h, beq_eq_false_iff_ne.2 h]

/-- What is set is found, and all else is as before. -/
theorem get?_set (b : Bindings α) (x y : Text) (a : α) :
    (b.set x a).get? y = if y = x then some a else b.get? y := by
  induction b with
  | nil => exact get?_cons x a [] y
  | cons p r ih =>
    obtain ⟨z, c⟩ := p
    unfold set
    by_cases hz : z = x
    · subst hz
      rw [if_pos rfl, get?_cons, get?_cons]
      split <;> rfl
    · rw [if_neg hz, get?_cons, get?_cons, ih]
      by_cases hy : y = z
      · subst hy
        rw [if_pos rfl, if_pos rfl, if_neg hz]
      · rw [if_neg hy, if_neg hy]

/-- Setting a name binds it, and leaves the others as they are. -/
theorem binds_set (b : Bindings α) (x y : Text) (a : α) :
    (b.set x a).binds y = (decide (y = x) || b.binds y) := by
  unfold binds
  rw [get?_set]
  by_cases h : y = x <;> simp [h]

/-- Binding a name that is bound already adds no name. -/
theorem binds_set_of_binds {b : Bindings α} {x : Text} (h : b.binds x) (a : α) (y : Text) :
    (b.set x a).binds y = b.binds y := by
  rw [binds_set]
  by_cases hy : y = x
  · subst hy
    simp [h]
  · simp [hy]

theorem binds_set_of_binds' {b : Bindings α} {y : Text} (h : b.binds y) (x : Text) (a : α) :
    (b.set x a).binds y := by
  rw [binds_set, h, Bool.or_true]

end Bindings

/-! ## Frames -/

namespace Frame

theorem declare?_eq_some {f g : Frame} {x : Text} {v : Int64}
    (h : f.declare? x v = some g) : ¬ f.vars.binds x ∧ g = { f with vars := f.vars.set x v } := by
  rw [Frame.declare?] at h
  by_cases hx : f.vars.binds x
  · rw [if_pos hx] at h
    cases h
  · rw [if_neg hx] at h
    exact ⟨hx, (Option.some.inj h).symm⟩

/-- Two frames bind the same names and have the same sink. -/
structure SameNames (f g : Frame) : Prop where
  vars : ∀ x, g.vars.binds x = f.vars.binds x
  funcs : ∀ x, g.funcs.binds x = f.funcs.binds x
  sink : g.sink = f.sink

/-- The second frame binds all names of the first one and has its sink. -/
structure MoreNames (f g : Frame) : Prop where
  vars : ∀ x, f.vars.binds x → g.vars.binds x
  funcs : ∀ x, f.funcs.binds x → g.funcs.binds x
  sink : g.sink = f.sink

namespace SameNames

theorem refl (f : Frame) : SameNames f f := ⟨fun _ => rfl, fun _ => rfl, rfl⟩

theorem trans {f g h : Frame} (a : SameNames f g) (b : SameNames g h) : SameNames f h :=
  ⟨fun x => (b.vars x).trans (a.vars x), fun x => (b.funcs x).trans (a.funcs x),
    b.sink.trans a.sink⟩

/-- The same names are no fewer. -/
theorem more {f g : Frame} (a : SameNames f g) : MoreNames f g :=
  ⟨fun x hx => by rw [a.vars, hx], fun x hx => by rw [a.funcs, hx], a.sink⟩

/-- Giving a variable of a frame another value. -/
theorem set_var {f : Frame} {x : Text} (h : f.vars.binds x) (v : Int64) :
    SameNames f { f with vars := f.vars.set x v } :=
  ⟨fun y => Bindings.binds_set_of_binds h v y, fun _ => rfl, rfl⟩

/-- Giving a function of a frame another meaning. -/
theorem set_func {f : Frame} {x : Text} (h : f.funcs.binds x) (g : Function) :
    SameNames f { f with funcs := f.funcs.set x g } :=
  ⟨fun _ => rfl, fun y => Bindings.binds_set_of_binds h g y, rfl⟩

end SameNames

namespace MoreNames

theorem trans {f g h : Frame} (a : MoreNames f g) (b : MoreNames g h) : MoreNames f h :=
  ⟨fun x hx => b.vars x (a.vars x hx), fun x hx => b.funcs x (a.funcs x hx), b.sink.trans a.sink⟩

/-- A function that is added adds a name at most. -/
theorem add_func (f : Frame) (x : Text) (g : Function) :
    MoreNames f { f with funcs := f.funcs.set x g } :=
  ⟨fun _ h => h, fun _ h => Bindings.binds_set_of_binds' h x g, rfl⟩

theorem declare? {f g : Frame} {x : Text} {v : Int64} (h : f.declare? x v = some g) :
    MoreNames f g := by
  unfold Frame.declare? at h
  split at h
  · cases h
  · cases h
    exact ⟨fun _ hy => Bindings.binds_set_of_binds' hy x v, fun _ hy => hy, rfl⟩

end MoreNames

end Frame

/-! ## Chains -/

namespace Chain

/-- Frame by frame, two chains bind the same names and have the same sinks. -/
abbrev SameNames (c d : Chain) : Prop := List.Forall₂ Frame.SameNames c d

theorem SameNames.refl (c : Chain) : SameNames c c := List.forall₂_same.2 fun f _ => .refl f

/-- What relates frames in turn relates chains frame by frame in turn. -/
theorem forall₂_trans {R : Frame → Frame → Prop} {c d e : Chain} (h : List.Forall₂ R c d)
    (k : List.Forall₂ R d e) (htrans : ∀ {f g h}, R f g → R g h → R f h) :
    List.Forall₂ R c e := by
  induction h generalizing e with
  | nil => exact k
  | cons hf _ ih =>
    cases k with
    | cons kf ks => exact .cons (htrans hf kf) (ih ks)

theorem SameNames.trans {c d e : Chain} (h : SameNames c d) (k : SameNames d e) : SameNames c e :=
  forall₂_trans h k Frame.SameNames.trans

/-- The second chain is what a run may make of the first one: the current frame may have more names,
and all frames above it have the same names. -/
inductive Disciplined : Chain → Chain → Prop
  | nil : Disciplined [] []
  | cons {f g : Frame} {up up' : Chain} :
      Frame.MoreNames f g → SameNames up up' → Disciplined (f :: up) (g :: up')

/-- Scopes with the same names keep the discipline. -/
theorem SameNames.disciplined {c d : Chain} (h : SameNames c d) : Disciplined c d := by
  cases h with
  | nil => exact .nil
  | cons h hs => exact .cons h.more hs

namespace Disciplined

theorem refl (c : Chain) : Disciplined c c := (SameNames.refl c).disciplined

theorem trans {c d e : Chain} (h : Disciplined c d) (k : Disciplined d e) : Disciplined c e := by
  cases h with
  | nil => exact k
  | cons h hs =>
    cases k with
    | cons k ks => exact .cons (h.trans k) (hs.trans ks)

theorem sink {c d : Chain} (h : Disciplined c d) : d.sink = c.sink := by
  cases h with
  | nil => rfl
  | cons h _ => exact h.sink

/-- The frames above the current one keep their names. -/
theorem tail {c d : Chain} (h : Disciplined c d) : SameNames c.tail d.tail := by
  cases h with
  | nil => exact .nil
  | cons _ hs => exact hs

theorem declare? {c d : Chain} {x : Text} {v : Int64} (h : c.declare? x v = some d) :
    Disciplined c d := by
  cases c with
  | nil => cases h
  | cons f up =>
    obtain ⟨g, hg, rfl⟩ := Option.map_eq_some_iff.1 h
    exact .cons (.declare? hg) (.refl up)

theorem addFunc (c : Chain) (x : Text) (g : Function) : Disciplined c (c.addFunc x g) := by
  cases c with
  | nil => exact .nil
  | cons f up => exact .cons (.add_func f x g) (.refl up)

end Disciplined

/-- An assignment binds no new name. -/
theorem SameNames.assign? {x : Text} {v : Int64} :
    ∀ {c d : Chain}, c.assign? x v = some d → SameNames c d
  | [], _, h => by cases h
  | f :: up, d, h => by
    unfold Chain.assign? at h
    by_cases hf : f.vars.binds x
    · rw [if_pos hf] at h
      cases h
      exact .cons (.set_var hf v) (SameNames.refl up)
    · rw [if_neg hf] at h
      obtain ⟨up', hup, rfl⟩ := Option.map_eq_some_iff.1 h
      exact .cons (.refl f) (SameNames.assign? hup)

/-- A function that is replaced binds no new name. -/
theorem SameNames.replaceFunc? {x : Text} {g : Function} :
    ∀ {c d : Chain}, c.replaceFunc? x g = some d → SameNames c d
  | [], _, h => by cases h
  | f :: up, d, h => by
    unfold Chain.replaceFunc? at h
    by_cases hf : f.funcs.binds x
    · rw [if_pos hf] at h
      cases h
      exact .cons (.set_func hf g) (SameNames.refl up)
    · rw [if_neg hf] at h
      obtain ⟨up', hup, rfl⟩ := Option.map_eq_some_iff.1 h
      exact .cons (.refl f) (SameNames.replaceFunc? hup)

/-- A definition replaces a function, or adds one to the current frame. -/
theorem Disciplined.defineFunc (c : Chain) (x : Text) (g : Function) :
    Disciplined c (c.defineFunc x g) := by
  unfold Chain.defineFunc
  cases h : c.replaceFunc? x g with
  | none => exact .addFunc c x g
  | some d => exact (SameNames.replaceFunc? h).disciplined

/-! ## Lookups -/

/-- A variable resolves when some frame of the chain binds it. -/
theorem lookup?_isSome (c : Chain) (x : Text) :
    (c.lookup? x).isSome ↔ ∃ f ∈ c, f.vars.binds x := by
  induction c with
  | nil => simp [lookup?]
  | cons f up ih =>
    unfold lookup?
    cases hf : f.vars.get? x with
    | some v => simp [Bindings.binds, hf]
    | none => simp [Bindings.binds, hf, ih]

/-- A function resolves when some frame of the chain binds it. -/
theorem lookupFunc?_isSome (c : Chain) (x : Text) :
    (c.lookupFunc? x).isSome ↔ ∃ f ∈ c, f.funcs.binds x := by
  induction c with
  | nil => simp [lookupFunc?]
  | cons f up ih =>
    unfold lookupFunc?
    cases hf : f.funcs.get? x with
    | some v => simp [Bindings.binds, hf]
    | none => simp [Bindings.binds, hf, ih]

/-- Every frame has a counterpart with at least its names. -/
theorem Disciplined.exists_more {c d : Chain} (h : Disciplined c d) :
    ∀ f ∈ c, ∃ g ∈ d, Frame.MoreNames f g := by
  have hall : List.Forall₂ Frame.MoreNames c d := by
    cases h with
    | nil => exact .nil
    | cons h hs => exact .cons h (hs.imp fun _ _ k => k.more)
  clear h
  induction hall with
  | nil => simp
  | cons h _ ih =>
    intro f hf
    rcases List.mem_cons.1 hf with rfl | hf
    · exact ⟨_, List.mem_cons_self, h⟩
    · obtain ⟨g, hg, k⟩ := ih f hf
      exact ⟨g, List.mem_cons_of_mem _ hg, k⟩

/-- Under the discipline no variable is lost. -/
theorem Disciplined.lookup? {c d : Chain} (h : Disciplined c d) (x : Text)
    (hx : (c.lookup? x).isSome) : (d.lookup? x).isSome := by
  rw [lookup?_isSome] at hx ⊢
  obtain ⟨f, hf, hx⟩ := hx
  obtain ⟨g, hg, k⟩ := h.exists_more f hf
  exact ⟨g, hg, k.vars x hx⟩

/-- Under the discipline no function is lost. -/
theorem Disciplined.lookupFunc? {c d : Chain} (h : Disciplined c d) (x : Text)
    (hx : (c.lookupFunc? x).isSome) : (d.lookupFunc? x).isSome := by
  rw [lookupFunc?_isSome] at hx ⊢
  obtain ⟨f, hf, hx⟩ := hx
  obtain ⟨g, hg, k⟩ := h.exists_more f hf
  exact ⟨g, hg, k.funcs x hx⟩

end Chain

/-! ## Runs -/

namespace Eval

/-- A run obeys the discipline of frames. -/
theorem disciplined_course : Course fun a b => Chain.Disciplined a.chain b.chain where
  refl m := .refl m.chain
  trans h k := h.trans k
  sink h := h.sink
  step o m := by
    unfold step
    cases o.limit with
    | none => exact .refl _
    | some n =>
      dsimp only
      split <;> exact .refl _
  check m := by
    unfold check
    split <;> exact .refl _
  declare x v m := by
    unfold declare
    cases h : m.chain.declare? x v with
    | some c => exact .declare? h
    | none => exact .refl _
  assign x v m := by
    unfold assign
    cases h : m.chain.assign? x v with
    | some c => exact (Chain.SameNames.assign? h).disciplined
    | none => exact .refl _
  define x f m := .defineFunc m.chain x f
  print v m := by
    unfold print
    split <;> exact .refl _
  frame f _ h := h.tail.disciplined
  body _ _ _ h := h

end Eval

end TreeLang
