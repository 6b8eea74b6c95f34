import TreeLang.Proofs.Eval.Frames
import TreeLang.Proofs.Eval.Halting
import TreeLang.Proofs.Scope.FrameMap

/-!
# Empty frames

A frame that binds nothing is passed over by every lookup, and no assignment and no definition ends
in it unless it is the current one. So an empty frame anywhere above the current one makes no
difference to a run, and is empty still when the run is over (`Eval.simulation_padding`,
`Eval.FrameUnseen`). The correspondence also leaves room for trees that were counted before, under a
limit that is greater by as many.
-/

set_option autoImplicit false

namespace TreeLang

/-! ## Scopes with an empty frame -/

namespace Chain

/-- A scope with an empty frame in it, above so many of its frames. -/
def padded (c : Chain) (below sink : Nat) : Chain := c.insertIdx below { sink := sink }

variable (c up : Chain) (f : Frame) (below sink : Nat) (x : Text)

theorem padded_cons : padded (f :: up) (below + 1) sink = f :: padded up below sink := rfl

/-- Reading a variable goes past the empty frame, be it the next one or further up. -/
theorem lookup?_padded : (c.padded below sink).lookup? x = c.lookup? x := by
  induction c generalizing below with
  | nil => cases below <;> rfl
  | cons f up ih =>
    cases below with
    | zero => rfl
    | succ below =>
      rw [padded_cons, lookup?, lookup?, ih]

/-- Finding a function goes past the empty frame. -/
theorem lookupFunc?_padded : (c.padded below sink).lookupFunc? x = c.lookupFunc? x := by
  induction c generalizing below with
  | nil => cases below <;> rfl
  | cons f up ih =>
    cases below with
    | zero => rfl
    | succ below => rw [padded_cons, lookupFunc?, lookupFunc?, ih]

/-- The empty frame does not bind the variable, so an assignment goes past it. -/
theorem assign?_padded (v : Int64) :
    (c.padded below sink).assign? x v = (c.assign? x v).map (padded · below sink) := by
  induction c generalizing below with
  | nil => cases below <;> rfl
  | cons f up ih =>
    cases below with
    | zero =>
      change (assign? (f :: up) x v).map (({ sink := sink } : Frame) :: ·) = _
      rfl
    | succ below =>
      rw [padded_cons, assign?, assign?, ih]
      by_cases hx : f.vars.binds x
      · simp only [if_pos hx]
        rfl
      · simp only [if_neg hx]
        cases assign? up x v <;> rfl

/-- The empty frame does not bind the function, so a definition that replaces one goes past it. -/
theorem replaceFunc?_padded (g : Function) :
    (c.padded below sink).replaceFunc? x g = (c.replaceFunc? x g).map (padded · below sink) := by
  induction c generalizing below with
  | nil => cases below <;> rfl
  | cons f up ih =>
    cases below with
    | zero =>
      change (replaceFunc? (f :: up) x g).map (({ sink := sink } : Frame) :: ·) = _
      rfl
    | succ below =>
      rw [padded_cons, replaceFunc?, replaceFunc?, ih]
      by_cases hx : f.funcs.binds x
      · simp only [if_pos hx]
        rfl
      · simp only [if_neg hx]
        cases replaceFunc? up x g <;> rfl

/-! With the current frame below the empty one, what is done to the current frame is the same. -/

/-- A declaration is made in front of the empty frame. -/
theorem declare?_padded (v : Int64) :
    (c.padded (below + 1) sink).declare? x v =
      (c.declare? x v).map (padded · (below + 1) sink) := by
  cases c with
  | nil => rfl
  | cons f up =>
    rw [padded_cons, declare?, declare?]
    cases f.declare? x v <;> rfl

theorem addFunc_padded (g : Function) :
    (c.padded (below + 1) sink).addFunc x g = (c.addFunc x g).padded (below + 1) sink := by
  cases c <;> rfl

/-- A definition is made in front of the empty frame, or past it. -/
theorem defineFunc_padded (g : Function) :
    (c.padded (below + 1) sink).defineFunc x g = (c.defineFunc x g).padded (below + 1) sink := by
  unfold defineFunc
  rw [replaceFunc?_padded, addFunc_padded]
  cases c.replaceFunc? x g <;> rfl

theorem sink_padded : (c.padded (below + 1) sink).sink = c.sink := by
  cases c <;> rfl

theorem child_padded : (c.padded (below + 1) sink).child = c.child := by
  cases c <;> rfl

end Chain

/-! ## Runs with an empty frame -/

/-- What halts a run, with a limit on the visited trees that is greater by so many. -/
def Halt.raised (more : Nat) : Halt → Halt
  | .error (.stepLimit n) => .error (.stepLimit (n + more))
  | h => h

theorem Halt.raised_zero : Halt.raised 0 = id := by
  funext h
  cases h with
  | error e => cases e <;> rfl
  | outOfFuel => rfl

/-- The options with a limit on the visited trees that is greater by so many, if there is one. -/
def Options.raised (o : Options) (more : Nat) : Options :=
  { o with limit := o.limit.map (· + more) }

theorem Options.raised_zero (o : Options) : o.raised 0 = o := by
  cases o with
  | mk limit => cases limit <;> rfl

/-- The machine with an empty frame in its scope. -/
def Machine.padded (m : Machine) (below sink : Nat) : Machine :=
  { m with chain := m.chain.padded below sink }

/-- The machine with so many more trees counted. -/
def Machine.later (m : Machine) (more : Nat) : Machine := { m with steps := m.steps + more }

namespace Eval

/-- The end of a run, with another halt and another machine. -/
def mapResult (g : Halt → Halt) (f : Machine → Machine) :
    EStateM.Result Halt Machine Int64 → EStateM.Result Halt Machine Int64
  | .ok v m => .ok v (f m)
  | .error h m => .error (g h) (f m)

/-- What is done to the result of a run is done to the machine that it leaves. -/
theorem final_mapResult (g : Halt → Halt) (f : Machine → Machine)
    (r : EStateM.Result Halt Machine Int64) : final (mapResult g f r) = f (final r) := by
  cases r <;> rfl

/-- The second machine has an empty frame above the current one, and has counted so many more
trees. Every frame that is entered is below the empty one too. -/
def padding (below sink more : Nat) : Coupling where
  machines d a b := b = (a.padded (below + d + 1) sink).later more
  frames := Eq
  names _ := Eq
  trees := Eq
  halts h k := k = h.raised more
  cut _ := False

/-- A run with an empty frame in the scope does what it does without it. -/
theorem simulation_padding (o : Options) (below sink more : Nat) :
    Simulation (padding below sink more) o (o.raised more) where
  trees := by
    rintro t _ rfl
    exact .refl t
  outOfFuel := rfl
  missingTree := rfl
  duplicate := by
    rintro x _ rfl
    rfl
  step := by
    intro d
    apply agrees_step more rfl
    · exact fun _ => rfl
    · rintro a _ rfl
      exact ⟨rfl, fun _ => rfl⟩
  check := by
    intro d
    apply agrees_check rfl
    rintro a _ rfl
    exact ⟨rfl, fun _ => rfl⟩
  lookup := by
    rintro d x _ rfl
    apply agrees_lookup rfl
    rintro a _ rfl
    exact a.chain.lookup?_padded _ sink x
  lookupFunc := by
    rintro d f _ rfl
    apply agrees_lookupFunc rfl
    rintro a _ rfl
    rw [Machine.later, Machine.padded, Chain.lookupFunc?_padded]
    exact rel_refl Function.Alike.refl _
  declare := by
    rintro d x _ v rfl
    apply agrees_declare v rfl
    rintro a _ rfl
    rw [Machine.later, Machine.padded, Chain.declare?_padded]
    refine rel_map (fun c => ?_) _
    rfl
  assign := by
    rintro d x _ v rfl
    apply agrees_assign v rfl
    rintro a _ rfl
    rw [Machine.later, Machine.padded, Chain.assign?_padded]
    refine rel_map (fun c => ?_) _
    rfl
  define := by
    rintro d f _ F G rfl hF a _ rfl
    cases hF.eq
    refine .ok rfl ?_
    show _ = _
    rw [Machine.later, Machine.padded, Chain.defineFunc_padded]
    rfl
  print := by
    intro d v
    apply agrees_print v rfl
    rintro a _ rfl
    rw [Machine.later, Machine.padded, Chain.sink_padded]
    refine rel_refl (fun s => ?_) _
    rfl
  child := by
    rintro d a _ rfl
    exact (a.chain.child_padded (below + d) sink).symm
  bind := by
    rintro f _ x _ v rfl rfl
    exact rel_refl Eq.refl _
  enter := by
    rintro d a _ f _ rfl rfl
    rfl
  leave := by
    rintro d a _ rfl
    show _ = _
    cases a with
    | mk chain => cases chain <;> rfl
  enterBody := by
    rintro d a _ f _ n rfl rfl
    show _ = _
    unfold enterBody
    rw [show (o.raised more).recorded = o.recorded from rfl]
    cases o.recorded <;> rfl
  leaveBody := by
    rintro d a _ rfl
    rfl
  printed h := h.elim

/-- Runs that end alike: the second machine has the empty frame still. -/
theorem Agree.eq_padded {below sink more : Nat} {r r' : EStateM.Result Halt Machine Int64}
    (h : Agree (padding below sink more) 0 Eq r r') :
    r' = mapResult (Halt.raised more) (fun m => (m.padded (below + 1) sink).later more) r := by
  cases h with
  | ok hv hab =>
    cases hv
    cases hab
    rfl
  | error hk hab =>
    cases hk
    cases hab
    rfl
  | cut hc _ => exact hc.elim

/-- Trees run one after the other with an empty frame above the current one, with more trees counted
before and a limit that is greater by as many. -/
theorem all_padded (o : Options) (fuel : Nat) (ts : List (Option Tree)) (m : Machine)
    (below sink more : Nat) :
    all (o.raised more) fuel ts ((m.padded (below + 1) sink).later more) =
      mapResult (Halt.raised more) (fun m => (m.padded (below + 1) sink).later more)
        (all o fuel ts m) := by
  have hall := (simulation_padding o below sink more).all (Or.inl (Eq.refl fuel)) 0 (Tree.forall₂_rel_eq ts)
  exact (hall.agrees rfl).eq_padded

/-- An empty frame above the current one makes no difference to a run. The run ends with the same
value or halt and leaves the same machine but for the frame, which is where it was and empty. -/
structure FrameUnseen (run : Machine → EStateM.Result Halt Machine Int64) (m : Machine)
    (below sink : Nat) : Prop where
  alike : run (m.padded (below + 1) sink) =
    mapResult id (Machine.padded · (below + 1) sink) (run m)
  empty : below < m.chain.length →
    (final (run (m.padded (below + 1) sink))).chain[below + 1]? = some { sink := sink }

/-- An empty frame is not seen by a run of trees: the run leaves as many frames as it finds, so the
empty one is still in its place. -/
theorem all_frameUnseen (o : Options) (fuel : Nat) (ts : List (Option Tree)) (m : Machine)
    (below sink : Nat) : FrameUnseen (all o fuel ts) m below sink := by
  have halike : all o fuel ts (m.padded (below + 1) sink) =
      mapResult id (Machine.padded · (below + 1) sink) (all o fuel ts m) := by
    have h := all_padded o fuel ts m below sink 0
    rw [Options.raised_zero, Halt.raised_zero] at h
    exact h
  refine ⟨halike, fun hb => ?_⟩
  have hlen : (final (all o fuel ts m)).chain.length = m.chain.length :=
    (disciplined_course.all o fuel ts m).length_eq
  rw [halike, final_mapResult]
  unfold Machine.padded Chain.padded
  rw [List.getElem?_insertIdx_self, if_pos (by omega)]

/-- An empty frame is not seen by an evaluation. -/
theorem evalAll_frameUnseen (o : Options) (ts : List (Option Tree)) (m : Machine)
    (below sink : Nat) : FrameUnseen (evalAll o ts) m below sink :=
  let h := all_frameUnseen o o.fuel ts m.restarted below sink
  ⟨h.alike, h.empty⟩

end Eval

end TreeLang
