import TreeLang.Proofs.Eval.Obedience

/-!
# Variables that code leaves alone

A variable changes only if it is assigned. Where code nowhere assigns `x`, a value that some frame
has for `x` is there still after the run, though the code may declare `x` and have parameters of
that name: what is declared is a variable that the frame did not have, or the declaration fails
(`evalAll_keeps_unassigned`).

A variable matters only if it is mentioned. Where code nowhere mentions `x`, it makes no difference
what `x` is in which frames, and the run does not touch it (`evalAll_unmentioned`).

In both cases the code is that of the trees at hand and of the functions that are bound at the
start, since no other code can come to run.
-/

set_option autoImplicit false

namespace TreeLang

/-- The value of a variable in a frame of a scope, counted from the current one. -/
def Chain.valueAt (scope : Chain) (i : Nat) (x : Text) : Option Int64 :=
  scope[i]?.bind fun f => f.vars.get? x

/-- What relates the frames of two scopes relates the values that a variable has in them. -/
theorem Chain.valueAt_of_forall₂ {R : Frame → Frame → Prop} {c d : Chain} {x : Text}
    {V : Option Int64 → Option Int64 → Prop} (hnone : V none none)
    (hR : ∀ {f g}, R f g → V (f.vars.get? x) (g.vars.get? x)) (h : List.Forall₂ R c d) (i : Nat) :
    V (c.valueAt i x) (d.valueAt i x) := by
  induction h generalizing i with
  | nil => exact hnone
  | cons hf _ ih =>
    cases i with
    | zero => exact hR hf
    | succ i => exact ih i

/-! ## Variables that are not assigned -/

/-- The second frame has the value that the first one has for the variable, if there is one. -/
def Frame.Keeps (x : Text) (f g : Frame) : Prop :=
  ∀ v, f.vars.get? x = some v → g.vars.get? x = some v

theorem Bindings.get?_eq_none {α : Type} {b : Bindings α} {x : Text} (h : ¬ b.binds x) :
    b.get? x = none := by
  rwa [Bindings.binds, Option.not_isSome_iff_eq_none] at h

/-- Giving another variable a value. -/
theorem Bindings.get?_set_of_ne {α : Type} (b : Bindings α) {x y : Text} (a : α) (h : x ≠ y) :
    (b.set x a).get? y = b.get? y := by
  rw [Bindings.get?_set, if_neg h.symm]

/-- Code that does not assign the variable leaves the values that it has. -/
theorem effect_keeps (x : Text) :
    Effect (fun r y => ¬ (r = .assigned ∧ y = x)) (Frame.Keeps x) where
  refl _ _ h := h
  trans h k v hv := k v (h v hv)
  declare := by
    intro f g y v _ hg w hw
    obtain ⟨hbinds, rfl⟩ := Frame.declare?_eq_some hg
    -- a variable that is declared has no value in the frame, so it is another one
    have hne : y ≠ x := by
      rintro rfl
      rw [Bindings.get?_eq_none hbinds] at hw
      cases hw
    rwa [Bindings.get?_set_of_ne _ _ hne]
  assign := by
    intro f y v hy _ w hw
    have hne : y ≠ x := fun h => hy ⟨rfl, h⟩
    rwa [Bindings.get?_set_of_ne _ _ hne]
  define _ _ _ _ h := h

/-- Only an assignment changes a variable. If neither the trees nor the functions that are bound at
the start assign `x` anywhere, then every value that a frame has for `x` is there after the run,
with whatever options, whether the run has a value or is halted, and however often `x` is declared
or is a parameter in the code. -/
theorem evalAll_keeps_unassigned (o : Options) (ts : List (Option Tree)) (m : Machine) (x : Text)
    (hts : ∀ t, some t ∈ ts → (.assigned, x) ∉ t.uses)
    (hfuncs : m.chain.EachFunc fun f => (.assigned, x) ∉ f.uses) (i : Nat) (v : Int64)
    (hv : m.chain.valueAt i x = some v) :
    (Eval.final (evalAll o ts m)).chain.valueAt i x = some v := by
  have hframes := (effect_keeps x).all o o.fuel (m := m.restarted)
    (fun t ht n hn h => hts t ht (h.1 ▸ h.2 ▸ hn))
    (fun f hf k g hg n hn h => hfuncs f hf k g hg (h.1 ▸ h.2 ▸ hn))
  exact Chain.valueAt_of_forall₂ (V := fun a b => ∀ v, a = some v → b = some v) (fun _ h => h)
    (fun h => h) hframes i v hv

/-- A root that binds a variable and a function with a parameter of that name, and a frame below it
that binds the variable too. -/
def twice : Machine where
  chain := [{ vars := [(utf8 "x", 1)] },
    { vars := [(utf8 "x", 2)]
      funcs := [(utf8 "f", ⟨utf8 "f", [utf8 "x"],
        some (.seq [.declare (utf8 "x") (.literal 5), .var (utf8 "x")])⟩)] }]

/-- The function is called, and then the variable is declared where it is bound, which fails. Both
frames have its values still. -/
theorem evalAll_keeps_unassigned_twice :
    let o : Options := { limit := some 9 }
    let ts : List (Option Tree) :=
      [some (.print (.call (utf8 "f") [.literal 4])), some (.declare (utf8 "x") (.literal 3))]
    let after := (Eval.final (evalAll o ts twice)).chain
    (∀ t, some t ∈ ts → (.assigned, utf8 "x") ∉ t.uses) ∧
      (twice.chain.EachFunc fun f => (.assigned, utf8 "x") ∉ f.uses) ∧
      outcomeOf (evalAll o ts twice) = .error (.error (.duplicate (utf8 "x"))) ∧
      after.valueAt 0 (utf8 "x") = some 1 ∧ after.valueAt 1 (utf8 "x") = some 2 := by
  intro o ts after
  have hts : ∀ t, some t ∈ ts → (.assigned, utf8 "x") ∉ t.uses := by
    simp only [ts, List.mem_cons, Option.some.injEq, List.not_mem_nil, or_false, forall_eq_or_imp,
      forall_eq]
    decide
  have hfuncs : twice.chain.EachFunc fun f => (.assigned, utf8 "x") ∉ f.uses := by
    have hall : ∀ f ∈ twice.chain, ∀ b ∈ f.funcs, (.assigned, utf8 "x") ∉ b.2.uses := by decide
    exact fun f hf => Frame.EachFunc.of_forall_mem (hall f hf)
  refine ⟨hts, hfuncs, by decide +kernel, ?_, ?_⟩
  · exact evalAll_keeps_unassigned o ts twice (utf8 "x") hts hfuncs 0 1 (by decide)
  · exact evalAll_keeps_unassigned o ts twice (utf8 "x") hts hfuncs 1 2 (by decide)

/-! ## Variables that are not mentioned -/

/-- A variable is mentioned in a tree: it is declared, assigned, read, or a parameter there. -/
def Tree.Mentions (x : Text) (t : Tree) : Prop := ∃ n ∈ t.uses, n.1.isVar ∧ n.2 = x

/-- A variable is mentioned in a function: it is a parameter, or is mentioned in the body. -/
def Function.Mentions (x : Text) (f : Function) : Prop := ∃ n ∈ f.uses, n.1.isVar ∧ n.2 = x

instance (x : Text) (t : Tree) : Decidable (t.Mentions x) :=
  inferInstanceAs (Decidable (∃ n ∈ t.uses, n.1.isVar ∧ n.2 = x))

instance (x : Text) (f : Function) : Decidable (f.Mentions x) :=
  inferInstanceAs (Decidable (∃ n ∈ f.uses, n.1.isVar ∧ n.2 = x))

/-- Two frames that differ at most in what they have for a variable. -/
structure Frame.AlikeBut (x : Text) (f g : Frame) : Prop where
  vars : ∀ y, y ≠ x → g.vars.get? y = f.vars.get? y
  funcs : ∀ k, g.funcs.get? k = f.funcs.get? k
  sink : g.sink = f.sink

/-- Two scopes that differ at most in what their frames have for a variable. -/
abbrev Chain.AlikeBut (x : Text) (c d : Chain) : Prop := List.Forall₂ (Frame.AlikeBut x) c d

namespace Frame.AlikeBut

variable {x y : Text} {f g : Frame}

theorem bindsVar (h : f.AlikeBut x g) (hy : y ≠ x) : g.vars.binds y = f.vars.binds y := by
  rw [Bindings.binds, Bindings.binds, h.vars y hy]

theorem bindsFunc (h : f.AlikeBut x g) (k : Text) : g.funcs.binds k = f.funcs.binds k := by
  rw [Bindings.binds, Bindings.binds, h.funcs k]

/-- Binding a variable in both frames leaves them alike. -/
theorem setVar (h : f.AlikeBut x g) (y : Text) (v : Int64) :
    Frame.AlikeBut x { f with vars := f.vars.set y v } { g with vars := g.vars.set y v } where
  vars z hz := by rw [Bindings.get?_set, Bindings.get?_set, h.vars z hz]
  funcs := h.funcs
  sink := h.sink

theorem setFunc (h : f.AlikeBut x g) (k : Text) (a : Function) :
    Frame.AlikeBut x { f with funcs := f.funcs.set k a } { g with funcs := g.funcs.set k a } where
  vars := h.vars
  funcs l := by rw [Bindings.get?_set, Bindings.get?_set, h.funcs l]
  sink := h.sink

theorem declare? (h : f.AlikeBut x g) (hy : y ≠ x) (v : Int64) :
    Option.Rel (Frame.AlikeBut x) (f.declare? y v) (g.declare? y v) := by
  rw [Frame.declare?, Frame.declare?, h.bindsVar hy]
  by_cases hf : f.vars.binds y
  · simp only [if_pos hf]
    exact .none
  · simp only [if_neg hf]
    exact .some (h.setVar y v)

end Frame.AlikeBut

namespace Chain.AlikeBut

variable {x y : Text} {c d : Chain}

/-- Scopes that differ in one variable answer alike to all others. -/
theorem lookup? (h : c.AlikeBut x d) (hy : y ≠ x) : d.lookup? y = c.lookup? y := by
  induction h with
  | nil => rfl
  | cons hf _ ih => rw [Chain.lookup?, Chain.lookup?, hf.vars y hy, ih]

theorem lookupFunc? (h : c.AlikeBut x d) (k : Text) : d.lookupFunc? k = c.lookupFunc? k := by
  induction h with
  | nil => rfl
  | cons hf _ ih => rw [Chain.lookupFunc?, Chain.lookupFunc?, hf.funcs k, ih]

theorem declare? (h : c.AlikeBut x d) (hy : y ≠ x) (v : Int64) :
    Option.Rel (Chain.AlikeBut x) (c.declare? y v) (d.declare? y v) := by
  cases h with
  | nil => exact .none
  | @cons f g up up' hf hup =>
    exact rel_map_map (hf.declare? hy v) fun hf' => .cons hf' hup

/-- An assignment to another variable leaves them alike. -/
theorem assign? (h : c.AlikeBut x d) (hy : y ≠ x) (v : Int64) :
    Option.Rel (Chain.AlikeBut x) (c.assign? y v) (d.assign? y v) := by
  induction h with
  | nil => exact .none
  | @cons f g up up' hf hup ih =>
    rw [Chain.assign?, Chain.assign?, hf.bindsVar hy]
    by_cases hb : f.vars.binds y
    · simp only [if_pos hb]
      exact .some (.cons (hf.setVar y v) hup)
    · simp only [if_neg hb]
      exact rel_map_map ih fun hup' => .cons hf hup'

theorem replaceFunc? (h : c.AlikeBut x d) (k : Text) (a : Function) :
    Option.Rel (Chain.AlikeBut x) (c.replaceFunc? k a) (d.replaceFunc? k a) := by
  induction h with
  | nil => exact .none
  | @cons f g up up' hf hup ih =>
    rw [Chain.replaceFunc?, Chain.replaceFunc?, hf.bindsFunc k]
    by_cases hb : f.funcs.binds k
    · simp only [if_pos hb]
      exact .some (.cons (hf.setFunc k a) hup)
    · simp only [if_neg hb]
      exact rel_map_map ih fun hup' => .cons hf hup'

theorem addFunc (h : c.AlikeBut x d) (k : Text) (a : Function) :
    Chain.AlikeBut x (c.addFunc k a) (d.addFunc k a) := by
  cases h with
  | nil => exact .nil
  | cons hf hup => exact .cons (hf.setFunc k a) hup

/-- A definition leaves them alike. -/
theorem defineFunc (h : c.AlikeBut x d) (k : Text) (a : Function) :
    Chain.AlikeBut x (c.defineFunc k a) (d.defineFunc k a) := by
  have hrel := h.replaceFunc? k a
  rw [Chain.defineFunc, Chain.defineFunc]
  generalize c.replaceFunc? k a = r at hrel
  generalize d.replaceFunc? k a = r' at hrel
  cases hrel with
  | none => exact h.addFunc k a
  | some hs => exact hs

theorem sink (h : c.AlikeBut x d) : d.sink = c.sink := by
  cases h with
  | nil => rfl
  | cons hf _ => exact hf.sink

/-- The same functions are bound in both scopes. -/
theorem eachFunc (h : c.AlikeBut x d) {Q : Function → Prop} (hc : c.EachFunc Q) : d.EachFunc Q := by
  induction h with
  | nil => exact hc
  | cons hf _ ih =>
    obtain ⟨hfirst, hup⟩ := List.forall_mem_cons.1 hc
    apply Chain.EachFunc.cons
    · intro k g hg
      exact hfirst k g ((hf.funcs k).symm.trans hg)
    · exact ih hup

end Chain.AlikeBut

/-- The name is not that of the variable `x`. -/
def Spares (x : Text) (r : Role) (y : Text) : Prop := r.isVar → y ≠ x

/-- Scopes that differ in a variable answer alike to code that does not mention it. -/
theorem scopeRelation_alikeBut (x : Text) :
    ScopeRelation (Spares x) (fun _ => Chain.AlikeBut x) (Frame.AlikeBut x) where
  lookup h hy := h.lookup? (hy rfl)
  lookupFunc k h := h.lookupFunc? k
  declare v h hy := h.declare? (hy rfl) v
  assign v h hy := h.assign? (hy rfl) v
  define k a h := h.defineFunc k a
  sink h := h.sink
  child h := ⟨fun _ _ => rfl, fun _ => rfl, h.sink⟩
  bind v h hy := h.declare? (hy rfl) v
  enter h hf := .cons hf h
  leave h := by
    cases h with
    | nil => exact .nil
    | cons _ h => exact h

/-- Code that does not mention a variable leaves it as it is, or leaves it out. -/
theorem effect_spares (x : Text) :
    Effect (Spares x) (fun f g => g.vars.get? x = f.vars.get? x) where
  refl _ := rfl
  trans h k := k.trans h
  declare := by
    intro f g y v hy hg
    obtain ⟨-, rfl⟩ := Frame.declare?_eq_some hg
    exact Bindings.get?_set_of_ne _ _ (hy rfl)
  assign v hy _ := Bindings.get?_set_of_ne _ _ (hy rfl)
  define _ _ _ := rfl

/-- A variable that is not mentioned does not matter. If neither the trees nor the functions that
are bound at the start mention `x`, then in a scope that differs in `x` alone, with other values
or in other frames, the run ends with the same value or the same error and has printed the same;
the scopes that the two runs leave differ in `x` alone, which both have left as it was in every
frame. -/
theorem evalAll_unmentioned (o : Options) (ts : List (Option Tree)) (m : Machine) (x : Text)
    (hts : ∀ t, some t ∈ ts → ¬ t.Mentions x)
    (hfuncs : m.chain.EachFunc fun f => ¬ f.Mentions x) (c : Chain) (hc : m.chain.AlikeBut x c) :
    let r := evalAll o ts m
    let r' := evalAll o ts { m with chain := c }
    outcomeOf r' = outcomeOf r ∧ (Eval.final r').sinks = (Eval.final r).sinks ∧
      (Eval.final r').calls = (Eval.final r).calls ∧
      (Eval.final r).chain.AlikeBut x (Eval.final r').chain ∧
      (∀ i, (Eval.final r).chain.valueAt i x = m.chain.valueAt i x) ∧
      ∀ i, (Eval.final r').chain.valueAt i x = c.valueAt i x := by
  intro r r'
  have hts' : ∀ t, some t ∈ ts → t.Obeys (Spares x) :=
    fun t ht n hn hvar hx => hts t ht ⟨n, hn, hvar, hx⟩
  have hfuncs' : m.chain.EachFunc (Function.Obeys (Spares x)) :=
    fun f hf k g hg n hn hvar hx => hfuncs f hf k g hg ⟨n, hn, hvar, hx⟩
  obtain ⟨houtcome, c', hfinal, halike, -⟩ :=
    Eval.all_obedient (scopeRelation_alikeBut x) o o.fuel hts' (m := m.restarted) hc hfuncs'
  have hrest : Eval.final r' = { Eval.final r with chain := c' } := hfinal
  have htouched := (effect_spares x).all o o.fuel hts' (m := m.restarted) hfuncs'
  have htouched' := (effect_spares x).all o o.fuel hts'
    (m := { m.restarted with chain := c }) (hc.eachFunc hfuncs')
  refine ⟨houtcome, ?_, ?_, ?_, fun i => ?_, fun i => ?_⟩
  · rw [hrest]
  · rw [hrest]
  · rw [hrest]
    exact halike
  · exact Chain.valueAt_of_forall₂ (V := fun a b => b = a) rfl (fun h => h) htouched i
  · exact Chain.valueAt_of_forall₂ (V := fun a b => b = a) rfl (fun h => h) htouched' i

/-- A function that prints its parameter plus a variable of its caller is called, and then one that
is not defined. It makes no difference that `x` has a value in the root, or in the current frame;
the function that is not defined may be called `x` too. -/
theorem evalAll_unmentioned_moved :
    let o : Options := { limit := some 20 }
    let f : Function := ⟨utf8 "f", [utf8 "a"],
      some (.print (.binary .add (.var (utf8 "a")) (.var (utf8 "y"))))⟩
    let ts : List (Option Tree) :=
      [some (.seq [.assign (utf8 "y") (.call (utf8 "f") [.literal 3]), .call (utf8 "x") []])]
    let m : Machine := { chain := [{ vars := [(utf8 "y", 1)] },
      { vars := [(utf8 "x", 5)], funcs := [(utf8 "f", f)] }] }
    let c : Chain := [{ vars := [(utf8 "x", 9), (utf8 "y", 1)] }, { funcs := [(utf8 "f", f)] }]
    let r := evalAll o ts m
    let r' := evalAll o ts { m with chain := c }
    (∀ t, some t ∈ ts → ¬ t.Mentions (utf8 "x")) ∧
      (m.chain.EachFunc fun f => ¬ f.Mentions (utf8 "x")) ∧ m.chain.AlikeBut (utf8 "x") c ∧
      outcomeOf r = .error (.error (.undefinedFunc (utf8 "x"))) ∧ outcomeOf r' = outcomeOf r ∧
      ((Eval.final r).sinks.get 0).text = utf8 "4\n" ∧ (Eval.final r').sinks = (Eval.final r).sinks ∧
      (Eval.final r').chain.valueAt 0 (utf8 "y") = some 4 ∧
      (Eval.final r').chain.valueAt 0 (utf8 "x") = some 9 := by
  intro o f ts m c r r'
  have hts : ∀ t, some t ∈ ts → ¬ t.Mentions (utf8 "x") := by
    simp only [ts, List.mem_singleton, Option.some.injEq, forall_eq]
    decide
  have hfuncs : m.chain.EachFunc fun f => ¬ f.Mentions (utf8 "x") := by
    have hall : ∀ g ∈ m.chain, ∀ b ∈ g.funcs, ¬ b.2.Mentions (utf8 "x") := by decide
    exact fun g hg => Frame.EachFunc.of_forall_mem (hall g hg)
  have hc : m.chain.AlikeBut (utf8 "x") c := by
    refine .cons ⟨fun y hy => ?_, fun _ => rfl, rfl⟩ (.cons ⟨fun y hy => ?_, fun _ => rfl, rfl⟩ .nil)
    · rw [Bindings.get?_cons, if_neg hy]
    · rw [Bindings.get?_cons, if_neg hy]
  obtain ⟨houtcome, hsinks, -, -, -, hx⟩ := evalAll_unmentioned o ts m (utf8 "x") hts hfuncs c hc
  exact ⟨hts, hfuncs, hc, by decide +kernel, houtcome, by decide +kernel, hsinks, by decide +kernel,
    hx 0⟩

end TreeLang
