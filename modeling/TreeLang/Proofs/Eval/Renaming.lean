import TreeLang.Proofs.Eval.Simulation
import TreeLang.Proofs.Scope.FrameMap

/-!
# Renaming

Names matter to a run only as far as they are the same or not. A renaming gives other names to the
variables and, independently, to the functions, different ones to different names. Everything that
holds names can be renamed: trees, functions, frames, the records of calls, and the errors that are
about a name. The run of renamed trees in a renamed scope is the renamed run (`evalAll_rename`): it
has the same value and output, it is halted by the same kind of error with the name that
corresponds, and it leaves the renamed scope.

Since variables and functions are renamed apart, this also says that no step of a run takes the one
for the other.
-/

set_option autoImplicit false

namespace TreeLang

/-- Other names for the variables and for the functions, different ones for different names. -/
structure Renaming where
  vars : Text → Text
  funcs : Text → Text
  vars_injective : Function.Injective vars
  funcs_injective : Function.Injective funcs

variable (ρ : Renaming)

/-! ## What is renamed -/

mutual

/-- A tree with other names. -/
def Tree.rename : Tree → Tree
  | .none => .none
  | .literal v => .literal v
  | .binary op a b => .binary op a.rename b.rename
  | .seq ts => .seq (renameAll ts)
  | .cond c a b => .cond c.rename a.rename b.rename
  | .loop c b => .loop c.rename b.rename
  | .declare x e => .declare (ρ.vars x) e.rename
  | .assign x e => .assign (ρ.vars x) e.rename
  | .var x => .var (ρ.vars x)
  | .print e => .print e.rename
  | .define f ps b => .define (ρ.funcs f) (ps.map ρ.vars) b.rename
  | .call f args => .call (ρ.funcs f) (renameAll args)

/-- Trees with other names. -/
def Tree.renameAll : List Tree → List Tree
  | [] => []
  | t :: ts => t.rename :: renameAll ts

end

/-- A function with other names. -/
def Function.rename (f : Function) : Function :=
  ⟨ρ.funcs f.name, f.params.map ρ.vars, f.body.map (Tree.rename ρ)⟩

/-- Bindings with other names, and with other meanings. -/
def Bindings.rename {α β : Type} (r : Text → Text) (g : α → β) (b : Bindings α) : Bindings β :=
  b.map fun p => (r p.1, g p.2)

/-- A frame with other names. -/
def Frame.rename (f : Frame) : Frame where
  vars := f.vars.rename ρ.vars id
  funcs := f.funcs.rename ρ.funcs (Function.rename ρ)
  sink := f.sink

/-- A scope with other names. -/
def Chain.rename (c : Chain) : Chain := c.map (Frame.rename ρ)

/-- The record of a call, with another name. -/
def CallRecord.rename (c : CallRecord) : CallRecord := { c with func := ρ.funcs c.func }

/-- A machine with other names. What was printed, and the counts, have no names in them. -/
def Machine.rename (m : Machine) : Machine :=
  { m with chain := m.chain.rename ρ, calls := m.calls.map (CallRecord.rename ρ) }

/-- An error that is about another name, if it is about one. -/
def EvalError.rename : EvalError → EvalError
  | .duplicate x => .duplicate (ρ.vars x)
  | .undefinedVar x => .undefinedVar (ρ.vars x)
  | .undefinedFunc f => .undefinedFunc (ρ.funcs f)
  | .stepLimit n => .stepLimit n
  | .canceled => .canceled
  | .sinkFull => .sinkFull
  | .missingTree => .missingTree

/-- What halts a run, with another name. -/
def Halt.rename : Halt → Halt
  | .error e => .error (e.rename ρ)
  | .outOfFuel => .outOfFuel

/-- The end of a run, with other names. -/
def Renaming.ofResult : EStateM.Result Halt Machine Int64 → EStateM.Result Halt Machine Int64
  | .ok v m => .ok v (m.rename ρ)
  | .error h m => .error (h.rename ρ) (m.rename ρ)

/-! ## Scopes -/

namespace Bindings

variable {α β : Type} {r : Text → Text}

/-- What was bound to a name is bound to its new name. -/
theorem get?_rename (hr : Function.Injective r) (g : α → β) (b : Bindings α) (x : Text) :
    (b.rename r g).get? (r x) = (b.get? x).map g := by
  induction b with
  | nil => rfl
  | cons p b ih =>
    obtain ⟨y, a⟩ := p
    change get? ((r y, g a) :: rename r g b) (r x) = _
    rw [get?_cons, get?_cons, ih]
    by_cases hxy : x = y
    · simp [hxy]
    · simp [hxy, hr.ne hxy]

/-- Binding a new name is the renaming of binding the old one. -/
theorem set_rename (hr : Function.Injective r) (g : α → β) (b : Bindings α) (x : Text) (a : α) :
    (b.rename r g).set (r x) (g a) = (b.set x a).rename r g := by
  induction b with
  | nil => rfl
  | cons p b ih =>
    obtain ⟨y, c⟩ := p
    change set ((r y, g c) :: rename r g b) (r x) (g a) = _
    unfold set
    by_cases hyx : y = x
    · simp [hyx, rename]
    · rw [if_neg hyx, if_neg (hr.ne hyx), ih]
      rfl

end Bindings

/-- Reading and writing a renamed frame by the new names. -/
theorem frameMap_rename : FrameMap (Frame.rename ρ) ρ.vars ρ.funcs (Function.rename ρ) where
  getVar f x := (Bindings.get?_rename ρ.vars_injective id f.vars x).trans Option.map_id_apply
  getFunc f x := Bindings.get?_rename ρ.funcs_injective (Function.rename ρ) f.funcs x
  setVar f x v := congrArg (fun vars => { f.rename ρ with vars := vars })
    (Bindings.set_rename ρ.vars_injective id f.vars x v)
  setFunc f x g := congrArg (fun funcs => { f.rename ρ with funcs := funcs })
    (Bindings.set_rename ρ.funcs_injective (Function.rename ρ) f.funcs x g)

theorem Chain.sink_rename (c : Chain) : (c.rename ρ).sink = c.sink := by
  cases c <;> rfl

/-! ## Trees and functions -/

theorem Tree.renameAll_eq_map (ts : List Tree) : renameAll ρ ts = ts.map (rename ρ) := by
  induction ts with
  | nil => rfl
  | cons t ts ih => rw [renameAll, ih, List.map_cons]

/-- The second name is the new one for the first, in a role. -/
def Renaming.names : Role → Text → Text → Prop
  | .declared | .assigned | .read | .param => fun x y => y = ρ.vars x
  | .defined | .called => fun f g => g = ρ.funcs f

/-- A renamed tree has the form of the tree, with the names that correspond. -/
theorem Tree.alike_rename (t : Tree) :
    Tree.Alike ρ.names (fun t u => u = t.rename ρ) t (t.rename ρ) := by
  have hall : ∀ ts : List Tree, List.Forall₂ (fun t u => u = t.rename ρ) ts (renameAll ρ ts) :=
    fun ts => (forall₂_eq_map_iff _ _ _).2 (renameAll_eq_map ρ ts)
  cases t with
  | none => exact .none
  | literal v => exact .literal v
  | binary op a b => exact .binary op rfl rfl
  | seq ts => exact .seq (hall ts)
  | cond c a b => exact .cond rfl rfl rfl
  | loop c b => exact .loop rfl rfl
  | declare x e => exact .declare rfl rfl
  | assign x e => exact .assign rfl rfl
  | var x => exact .var rfl
  | print e => exact .print rfl
  | define f ps b => exact .define rfl ((forall₂_eq_map_iff _ _ _).2 rfl) rfl
  | call f args => exact .call rfl (hall args)

/-- A function corresponds to its renamed form and to no other one. -/
theorem Function.alike_rename_iff (f g : Function) :
    Function.Alike ρ.names (fun t u => u = t.rename ρ) f g ↔ g = f.rename ρ := by
  obtain ⟨name, params, body⟩ := f
  obtain ⟨name', params', body'⟩ := g
  constructor
  · rintro ⟨hname, hparams, hbody⟩
    have hparams := (forall₂_eq_map_iff _ _ _).1 hparams
    subst hname hparams
    cases hbody with
    | none => rfl
    | some h =>
      subst h
      rfl
  · intro h
    cases h
    refine ⟨rfl, (forall₂_eq_map_iff _ _ _).2 rfl, ?_⟩
    cases body with
    | none => exact .none
    | some t => exact .some rfl

/-! ## Runs -/

namespace Eval

/-- What corresponds to what under a renaming: everything to its renamed form. -/
def renamed : Coupling where
  machines _ a b := b = a.rename ρ
  frames f g := g = f.rename ρ
  names := ρ.names
  trees t u := u = t.rename ρ
  halts h k := k = h.rename ρ
  cut _ := False

/-- Renamed code does in a renamed scope what the code does in the scope. -/
theorem simulation_renamed (o : Options) : Simulation (renamed ρ) o o where
  trees := by
    rintro t _ rfl
    exact t.alike_rename ρ
  outOfFuel := rfl
  missingTree := rfl
  duplicate := by
    rintro x _ rfl
    rfl
  step := by
    intro d
    apply agrees_step 0
    · exact Option.map_id_apply.symm
    · exact fun _ => rfl
    · rintro a _ rfl
      exact ⟨rfl, fun _ => rfl⟩
  check := by
    intro d
    apply agrees_check rfl
    rintro a _ rfl
    exact ⟨rfl, fun _ => rfl⟩
  lookup := by
    rintro d x _ rfl
    apply agrees_lookup rfl
    rintro a _ rfl
    exact (frameMap_rename ρ).lookup? a.chain x
  lookupFunc := by
    rintro d f _ rfl
    apply agrees_lookupFunc rfl
    rintro a _ rfl
    rw [Machine.rename, Chain.rename, (frameMap_rename ρ).lookupFunc?]
    exact rel_map (fun g => (Function.alike_rename_iff ρ g _).2 rfl) _
  declare := by
    rintro d x _ v rfl
    apply agrees_declare v rfl
    rintro a _ rfl
    rw [Machine.rename, Chain.rename, (frameMap_rename ρ).declare?]
    refine rel_map (fun _ => ?_) _
    rfl
  assign := by
    rintro d x _ v rfl
    apply agrees_assign v rfl
    rintro a _ rfl
    rw [Machine.rename, Chain.rename, (frameMap_rename ρ).assign?]
    refine rel_map (fun _ => ?_) _
    rfl
  define := by
    rintro d f _ F G rfl hF a _ rfl
    rw [(Function.alike_rename_iff ρ F G).1 hF]
    refine .ok rfl ?_
    show _ = _
    rw [Machine.rename, Chain.rename, (frameMap_rename ρ).defineFunc]
    rfl
  print := by
    intro d v
    apply agrees_print v rfl
    rintro a _ rfl
    rw [Machine.rename, Chain.sink_rename]
    refine rel_refl (fun _ => ?_) _
    rfl
  child := by
    rintro d a _ rfl
    show _ = _
    rw [Machine.rename, Chain.child, Chain.sink_rename]
    rfl
  bind := by
    rintro f _ x _ v rfl rfl
    rw [(frameMap_rename ρ).declareVar?]
    refine rel_map (fun _ => ?_) _
    rfl
  enter := by
    rintro d a _ f _ rfl rfl
    rfl
  leave := by
    rintro d a _ rfl
    show _ = _
    cases a with
    | mk chain => cases chain <;> rfl
  enterBody := by
    rintro d a _ f _ n rfl rfl
    show _ = _
    unfold enterBody
    cases o.recorded <;> rfl
  leaveBody := by
    rintro d a _ rfl
    rfl
  printed h := h.elim

/-- Runs that end alike: the second one is the first one, renamed. -/
theorem Agree.eq_ofResult {d : Nat} {r r' : EStateM.Result Halt Machine Int64}
    (h : Agree (renamed ρ) d Eq r r') : r' = ρ.ofResult r := by
  cases h with
  | ok hv hab =>
    cases hv
    cases hab
    rfl
  | error hk hab =>
    cases hk
    cases hab
    rfl
  | cut hc _ => exact hc.elim

end Eval

/-- Evaluation is invariant under renaming, with the names of variables and of functions renamed
apart. The run of renamed trees in a renamed scope ends as the run of the trees does, with the same
value or the same kind of error, about the name that corresponds; it has printed the same to every
sink, and leaves the renamed scope. The same holds of the run of one tree, with whatever fuel. -/
theorem evalAll_rename (o : Options) (ts : List (Option Tree)) (m : Machine) :
    evalAll o (ts.map (Option.map (Tree.rename ρ))) (m.rename ρ) = ρ.ofResult (evalAll o ts m) ∧
      ∀ fuel t, Eval.tree o fuel (t.rename ρ) (m.rename ρ) = ρ.ofResult (Eval.tree o fuel t m) := by
  have hsim := Eval.simulation_renamed ρ o
  have hts : List.Forall₂ (Option.Rel (Eval.renamed ρ).trees) ts
      (ts.map (Option.map (Tree.rename ρ))) := by
    rw [List.forall₂_map_right_iff, List.forall₂_same]
    intro t _
    cases t with
    | none => exact .none
    | some t => exact .some rfl
  constructor
  · apply Eval.Agree.eq_ofResult
    exact (hsim.all (Or.inl rfl) 0 hts).agrees (a := m.restarted) rfl
  · intro fuel t
    apply Eval.Agree.eq_ofResult
    exact (hsim.tree (Or.inl rfl) 0 rfl).agrees rfl

/-- The renaming that swaps two variables and swaps two functions. -/
def Renaming.swap (x y f g : Text) : Renaming where
  vars := Equiv.swap x y
  funcs := Equiv.swap f g
  vars_injective := (Equiv.swap x y).injective
  funcs_injective := (Equiv.swap f g).injective

/-- The trees `def f(x) = x + 1`, `print f(2)` and `x`. -/
def printThenFail (f x : Text) : List (Option Tree) :=
  [some (.define f [x] (.binary .add (.var x) (.literal 1))), some (.print (.call f [.literal 2])),
    some (.var x)]

/-- What the trees leave behind in an empty scope: the function, the printed number, and the count
of the visited trees. -/
def printThenFail.left (f x : Text) : Machine where
  chain := [{ funcs := [(f, ⟨f, [x], some (.binary .add (.var x) (.literal 1))⟩)] }]
  sinks := [(0, { printed := [3] })]
  steps := 8

/-- With variables swapped and functions swapped, the run fails for the variable that corresponds,
and leaves the function that corresponds. -/
theorem evalAll_rename_swapped :
    let ρ := Renaming.swap (utf8 "x") (utf8 "y") (utf8 "f") (utf8 "g")
    let o : Options := { limit := some 20 }
    (printThenFail (utf8 "f") (utf8 "x")).map (Option.map (Tree.rename ρ)) =
        printThenFail (utf8 "g") (utf8 "y") ∧
      evalAll o (printThenFail (utf8 "f") (utf8 "x")) { chain := [{}] } =
        .error (.error (.undefinedVar (utf8 "x"))) (printThenFail.left (utf8 "f") (utf8 "x")) ∧
      evalAll o (printThenFail (utf8 "g") (utf8 "y")) { chain := [{}] } =
        .error (.error (.undefinedVar (utf8 "y"))) (printThenFail.left (utf8 "g") (utf8 "y")) := by
  intro ρ o
  have htrees : (printThenFail (utf8 "f") (utf8 "x")).map (Option.map (Tree.rename ρ)) =
      printThenFail (utf8 "g") (utf8 "y") := by rfl
  have hrun : evalAll o (printThenFail (utf8 "f") (utf8 "x")) { chain := [{}] } =
      .error (.error (.undefinedVar (utf8 "x"))) (printThenFail.left (utf8 "f") (utf8 "x")) := by
    cbv
  have hrename := (evalAll_rename ρ o (printThenFail (utf8 "f") (utf8 "x")) { chain := [{}] }).1
  rw [htrees, hrun] at hrename
  exact ⟨htrees, hrun, hrename⟩

end TreeLang
