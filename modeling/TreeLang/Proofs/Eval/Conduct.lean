import TreeLang.Proofs.Eval.Visits

/-!
# What holds all along a run

A conduct says what is to hold of machines, of the frames that are entered, of the trees and
functions that run, and of a machine that a halt leaves behind. If counting, asking, reading and
writing scopes, printing, and entering and leaving frames and bodies keep to a conduct, then it
holds at every visit of a run and at its end, whatever the fuel (`Conduct.Kept.tree`,
`Conduct.Kept.all`).

As for two runs side by side, machines are spoken of at a depth, the number of frames that the run
has entered so far.
-/

set_option autoImplicit false

namespace TreeLang

namespace Eval

variable {α β : Type}

/-- What is to hold all along a run. -/
structure Conduct where
  /-- Of the machine, inside so many frames that were entered. -/
  machine : Nat → Machine → Prop
  /-- Of a frame that is about to be entered. -/
  frame : Frame → Prop
  /-- Of a tree that may run. -/
  tree : Tree → Prop
  /-- Of a function that may be called. -/
  func : Function → Prop
  /-- Of the machine that is left behind by a halt. -/
  halt : Halt → Machine → Prop

namespace Conduct

variable (C : Conduct) (d : Nat)

/-- What is to hold of a tree that may be missing. -/
def mayRun : Option Tree → Prop
  | some t => C.tree t
  | none => ∀ d m, C.machine d m → C.halt (.error .missingTree) m

variable {C} in
/-- Where every tree may run and one may be missing, every optional tree may run. -/
theorem mayRun_of_forall (ht : ∀ t, C.tree t)
    (hmissing : ∀ d m, C.machine d m → C.halt (.error .missingTree) m) (t : Option Tree) :
    C.mayRun t := by
  cases t with
  | some t => exact ht t
  | none => exact hmissing

/-- What is to hold at a visit. -/
def visit (v : Visit) : Prop := C.tree v.tree ∧ ∃ d, C.machine d v.machine

/-- How a run is to end at a depth, with a value as `V` says. -/
inductive End (V : α → Prop) : EStateM.Result Halt Machine α → Prop
  | ok {a : α} {m : Machine} : V a → C.machine d m → End V (.ok a m)
  | error {h : Halt} {m : Machine} : C.halt h m → End V (.error h m)

/-- From a machine as it is to be, a run ends as it is to end. -/
def Keeps (V : α → Prop) (x : Eval α) : Prop := ∀ {m}, C.machine d m → C.End d V (x m)

/-- What is seen in a run is as it is to be, and so is the end of the run. -/
structure Upholds (V : α → Prop) (x : Eval α) (seen : Machine → List Visit) : Prop where
  ends : C.Keeps d V x
  visits : ∀ {m}, C.machine d m → ∀ v ∈ seen m, C.visit v

/-- Everything a run does keeps to the conduct. -/
structure Kept (C : Conduct) (o : Options) : Prop where
  inside : ∀ {t u}, C.tree t → u ∈ t.children → C.tree u
  body : ∀ {g}, C.func g → C.mayRun g.body
  outOfFuel : ∀ {d m}, C.machine d m → C.halt .outOfFuel m
  duplicate : ∀ {d m g x}, C.machine d m → C.func g → x ∈ g.params →
    C.halt (.error (.duplicate x)) m
  step : ∀ d, C.Keeps d (fun _ => True) (step o)
  check : ∀ d, C.Keeps d (fun _ => True) check
  lookup : ∀ d {x}, C.tree (.var x) → C.Keeps d (fun _ => True) (lookup x)
  lookupFunc : ∀ d {f args}, C.tree (.call f args) → C.Keeps d C.func (lookupFunc f)
  declare : ∀ d {x e} v, C.tree (.declare x e) → C.Keeps d (fun _ => True) (declare x v)
  assign : ∀ d {x e} v, C.tree (.assign x e) → C.Keeps d (fun _ => True) (assign x v)
  define : ∀ d {f ps b}, C.tree (.define f ps b) →
    C.Keeps d (fun _ => True) (define f ⟨f, ps, some b⟩)
  print : ∀ d v, C.Keeps d (fun _ => True) (print v)
  child : ∀ {d m}, C.machine d m → C.frame m.chain.child
  bind : ∀ {f f' x v}, C.frame f → f.declare? x v = some f' → C.frame f'
  enter : ∀ {d m f}, C.machine d m → C.frame f → C.machine (d + 1) (enter f m)
  leave : ∀ {d m}, C.machine (d + 1) m → C.machine d (leave m)
  enterBody : ∀ {d m} f n, C.machine d m → C.machine d (enterBody o f n m)
  leaveBody : ∀ {d m}, C.machine d m → C.machine d (leaveBody m)
  haltLeave : ∀ {h m}, C.halt h m → C.halt h (Eval.leave m)
  haltLeaveBody : ∀ {h m}, C.halt h m → C.halt h (Eval.leaveBody m)

variable {C d}

/-! ## Runs one after the other -/

namespace Upholds

variable {V : α → Prop} {W : β → Prop} {seen : Machine → List Visit}

/-- What visits no tree. -/
theorem of_keeps {x : Eval α} (h : C.Keeps d V x) : C.Upholds d V x fun _ => [] :=
  ⟨h, fun _ _ hv => absurd hv List.not_mem_nil⟩

theorem pure {a : α} (h : V a) : C.Upholds d V (Pure.pure a) fun _ => [] :=
  of_keeps fun hm => .ok h hm

theorem halt {h : Halt} (hh : ∀ {m}, C.machine d m → C.halt h m) :
    C.Upholds d V (throw h : Eval α) fun _ => [] :=
  of_keeps fun hm => .error (hh hm)

/-- What holds after the first of two runs is what the second one starts from. -/
theorem bind {x : Eval α} {f : α → Eval β} {next : α → Machine → List Visit}
    (hx : C.Upholds d V x seen) (hf : ∀ a, V a → C.Upholds d W (f a) (next a)) :
    C.Upholds d W (x >>= f) fun m => seen m ++ thereafter (x m) next := by
  constructor
  · intro m hm
    have h := hx.ends hm
    generalize hr : x m = r at h
    cases h with
    | ok ha hm' =>
      rw [bind_ok hr]
      exact (hf _ ha).ends hm'
    | error hh =>
      rw [bind_error hr]
      exact .error hh
  · intro m hm v hv
    have h := hx.ends hm
    rcases List.mem_append.1 hv with hv | hv
    · exact hx.visits hm v hv
    · generalize x m = r at h hv
      cases h with
      | ok ha hm' => exact (hf _ ha).visits hm' v hv
      | error hh => exact absurd hv List.not_mem_nil

/-- Entering and leaving, from one depth to another and back. -/
theorem around {e : Nat} {before after : Machine → Machine} {x : Eval α}
    (hx : C.Upholds e V x seen) (hbefore : ∀ {m}, C.machine d m → C.machine e (before m))
    (hafter : ∀ {m}, C.machine e m → C.machine d (after m))
    (hhalt : ∀ {h m}, C.halt h m → C.halt h (after m)) :
    C.Upholds d V (Eval.around before after x) fun m => seen (before m) := by
  constructor
  · intro m hm
    have h := hx.ends (hbefore hm)
    unfold Eval.around
    generalize x (before m) = r at h
    cases h with
    | ok ha hm' => exact .ok ha (hafter hm')
    | error hh => exact .error (hhalt hh)
  · intro m hm
    exact hx.visits (hbefore hm)

end Upholds

/-! ## Runs of trees -/

namespace Kept

variable {o : Options}

/-- The tree at hand is visited as it is to be. -/
theorem visit (K : C.Kept o) {t : Tree} (ht : C.tree t) :
    C.Upholds d (fun _ => True) (Eval.step o) (Notes.visits.visit t) := by
  refine ⟨K.step d, fun {m} hm v hv => ?_⟩
  rw [List.mem_singleton.1 hv]
  exact ⟨ht, d, hm⟩

/-- The rules for a conduct, with the depth as index. -/
def plain (K : C.Kept o) : Plain Notes.visits o where
  Index := Nat
  Holds d x seen := C.Upholds d (fun _ => True) x seen
  MayCall := C.func
  MayEnter := C.frame
  MayRun _ t := C.mayRun t
  inside d := d + 1
  pure _ := .pure trivial
  bind hx hf := .bind hx fun a _ => hf a
  duplicate hg hx := .halt fun hm => K.duplicate hm hg hx
  print v := .of_keeps (K.print _ v)
  child hF := ⟨fun hm => (hF _ (K.child hm)).ends hm, fun hm => (hF _ (K.child hm)).visits hm⟩
  bound := K.bind
  inFrame hf hx := .around hx (fun hm => K.enter hm hf) K.leave K.haltLeave
  inBody hx := .around hx (fun hm => K.enterBody _ _ hm) K.leaveBody K.haltLeaveBody
  outOfFuel := .halt K.outOfFuel
  missing hmissing := .halt fun hm => hmissing _ _ hm
  step := K.visit
  check := .of_keeps (K.check _)
  lookup ht := .of_keeps (K.lookup _ ht)
  lookupFunc ht hF := .bind (.of_keeps (K.lookupFunc _ ht)) hF
  declare v ht := .of_keeps (K.declare _ v ht)
  assign v ht := .of_keeps (K.assign _ v ht)
  define ht := .of_keeps (K.define _ ht)
  children ht hu := K.inside ht hu
  body _ hg := K.body hg

/-- What holds at the start of a run of a tree holds at every visit and at the end. -/
theorem tree (K : C.Kept o) (fuel : Nat) (d : Nat) {t : Tree} (ht : C.tree t) :
    C.Upholds d (fun _ => True) (Eval.tree o fuel t) (Notes.visits.tree o fuel t) :=
  K.plain.logic.tree fuel d t ht

/-- What holds at the start of a run of trees one after the other holds at every visit and at the
end. -/
theorem all (K : C.Kept o) (fuel : Nat) {ts : List (Option Tree)} (hts : ∀ t ∈ ts, C.mayRun t) :
    C.Upholds 0 (fun _ => True) (all o fuel ts) (visitsAll o fuel ts) :=
  K.plain.logic.all fuel (0 : Nat) hts

end Kept

end Conduct

end Eval

end TreeLang
