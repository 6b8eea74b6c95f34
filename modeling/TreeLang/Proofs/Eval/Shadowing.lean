import TreeLang.Proofs.Eval.Conduct
import TreeLang.Proofs.Eval.Frames

/-!
# No function is shadowed

Variables may be bound in several frames of a scope, and the nearest one counts. Functions are
different: a definition writes to the nearest frame that has a function of the name, wherever the
scope has one, and it adds a name only to a scope where no frame has it. So if every function name
is bound in at most one frame of a scope, then this stays so: for the scopes of all frames that are
entered, at every visit of a run and after it (`evalAll_unshadowed`).
-/

set_option autoImplicit false

namespace TreeLang

namespace Chain

/-- The number of frames of a scope that have a function of a name. -/
def binders (c : Chain) (x : Text) : Nat := c.countP fun f => f.funcs.binds x

/-- No function is shadowed: every function name is bound in at most one frame. -/
def Unshadowed (c : Chain) : Prop := ∀ x, c.binders x ≤ 1

theorem binders_cons (f : Frame) (c : Chain) (x : Text) :
    binders (f :: c) x = c.binders x + if f.funcs.binds x then 1 else 0 :=
  List.countP_cons

/-- Fewer frames bind a name no more often. -/
theorem binders_tail_le (c : Chain) (x : Text) : binders c.tail x ≤ c.binders x :=
  (List.tail_sublist c).countP_le

/-- Scopes with the same names bind a function equally often. -/
theorem SameNames.binders_eq {c d : Chain} (h : SameNames c d) (x : Text) :
    d.binders x = c.binders x := by
  induction h with
  | nil => rfl
  | cons hf _ ih => rw [binders_cons, binders_cons, ih, hf.funcs x]

/-- A variable that is declared binds no function. -/
theorem binders_declare? {c d : Chain} {x : Text} {v : Int64} (h : c.declare? x v = some d)
    (y : Text) : d.binders y = c.binders y := by
  cases c with
  | nil => cases h
  | cons f up =>
    obtain ⟨g, hg, rfl⟩ := Option.map_eq_some_iff.1 h
    obtain ⟨-, rfl⟩ := Frame.declare?_eq_some hg
    rw [binders_cons, binders_cons]

/-- There is nothing to replace where no frame has the function. -/
theorem binders_eq_zero_of_replaceFunc? {c : Chain} {x : Text} {g : Function}
    (h : c.replaceFunc? x g = none) : c.binders x = 0 := by
  induction c with
  | nil => rfl
  | cons f up ih =>
    rw [replaceFunc?] at h
    by_cases hf : f.funcs.binds x
    · rw [if_pos hf] at h
      cases h
    · rw [if_neg hf, Option.map_eq_none_iff] at h
      rw [binders_cons, ih h, if_neg hf]

/-- Adding a function makes the current frame bind its name, and binds no other name. -/
theorem binders_addFunc_le (c : Chain) (x y : Text) (g : Function) :
    (c.addFunc x g).binders y ≤ c.binders y + if y = x then 1 else 0 := by
  cases c with
  | nil => exact Nat.zero_le _
  | cons f up =>
    rw [addFunc, binders_cons, binders_cons, Bindings.binds_set]
    by_cases hy : y = x
    · simp only [hy, decide_true, Bool.true_or, if_true]
      omega
    · simp [hy]

namespace Unshadowed

/-- A definition replaces a function that is bound, or adds a name that was bound in no frame. -/
theorem defineFunc {c : Chain} (h : c.Unshadowed) (x : Text) (g : Function) :
    (c.defineFunc x g).Unshadowed := by
  intro y
  rw [Chain.defineFunc]
  cases hr : c.replaceFunc? x g with
  | some d =>
    rw [Option.getD_some, (SameNames.replaceFunc? hr).binders_eq]
    exact h y
  | none =>
    have hzero := binders_eq_zero_of_replaceFunc? hr
    have hle := binders_addFunc_le c x y g
    rw [Option.getD_none]
    by_cases hy : y = x
    · rw [if_pos hy, hy, hzero] at hle
      rwa [hy]
    · rw [if_neg hy] at hle
      exact Nat.le_trans hle (h y)

/-- A frame without functions shadows nothing. -/
theorem cons {c : Chain} (h : c.Unshadowed) {f : Frame} (hf : f.funcs = []) :
    Unshadowed (f :: c) := by
  intro x
  rw [binders_cons, hf]
  exact h x

theorem tail {c : Chain} (h : c.Unshadowed) : Unshadowed c.tail :=
  fun x => Nat.le_trans (c.binders_tail_le x) (h x)

end Unshadowed

end Chain

namespace Eval

/-- All along a run, no function is shadowed in the scope of the frame in use. -/
def unshadowed : Conduct where
  machine _ m := m.chain.Unshadowed
  frame f := f.funcs = []
  tree _ := True
  func _ := True
  halt _ m := m.chain.Unshadowed

theorem unshadowed_mayRun (t : Option Tree) : unshadowed.mayRun t :=
  Conduct.mayRun_of_forall (fun _ => trivial) (fun _ _ hm => hm) t

/-- It is enough to look at the scope that is left. -/
theorem unshadowed_keeps {α : Type} {d : Nat} {x : Eval α}
    (h : ∀ m, m.chain.Unshadowed → (final (x m)).chain.Unshadowed) :
    unshadowed.Keeps d (fun _ => True) x := by
  intro m hm
  have hx := h m hm
  cases hr : x m with
  | ok a m' =>
    rw [hr] at hx
    exact .ok trivial hx
  | error e m' =>
    rw [hr] at hx
    exact .error hx

/-- No part of a run makes a function hide another one. -/
theorem kept_unshadowed (o : Options) : unshadowed.Kept o where
  inside _ _ := trivial
  body _ := unshadowed_mayRun _
  outOfFuel hm := hm
  duplicate hm _ _ := hm
  step d := unshadowed_keeps fun m hm => by rwa [step_chain]
  check d := by
    apply unshadowed_keeps
    intro m hm
    rw [check]
    split <;> exact hm
  lookup d _ _ := by
    apply unshadowed_keeps
    intro m hm
    rw [lookup]
    split <;> exact hm
  lookupFunc d _ _ _ := by
    apply unshadowed_keeps
    intro m hm
    rw [lookupFunc]
    split <;> exact hm
  declare d x _ v _ := by
    apply unshadowed_keeps
    intro m hm
    rw [declare]
    split
    · rename_i c hc
      exact fun y => (Chain.binders_declare? hc y).le.trans (hm y)
    · exact hm
  assign d x _ v _ := by
    apply unshadowed_keeps
    intro m hm
    rw [assign]
    split
    · rename_i c hc
      exact fun y => ((Chain.SameNames.assign? hc).binders_eq y).le.trans (hm y)
    · exact hm
  define d f ps b _ := by
    apply unshadowed_keeps
    intro m hm
    exact hm.defineFunc f ⟨f, ps, some b⟩
  print d v := by
    apply unshadowed_keeps
    intro m hm
    rw [print]
    split <;> exact hm
  child _ := rfl
  bind hf hd := by
    obtain ⟨-, rfl⟩ := Frame.declare?_eq_some hd
    exact hf
  enter hm hf := hm.cons hf
  leave hm := hm.tail
  enterBody _ _ hm := hm
  leaveBody hm := hm
  haltLeave hm := hm.tail
  haltLeaveBody hm := hm

end Eval

/-- Evaluation never shadows a function. If every function name is bound in at most one frame of the
scope at the start, then so it is in the scope of the frame in use at every tree that the run
visits, and in the scope that the run leaves behind, with a value or not; this holds for every fuel,
so for runs without end as well. The visits are all there are: a limit counts as many trees. -/
theorem evalAll_unshadowed (o : Options) (ts : List (Option Tree)) (m : Machine)
    (h : m.chain.Unshadowed) :
    (Eval.final (evalAll o ts m)).chain.Unshadowed ∧
      ∀ fuel, (∀ v ∈ Eval.visitsAll o fuel ts m.restarted, v.machine.chain.Unshadowed) ∧
        (Eval.final (Eval.all o fuel ts m.restarted)).chain.Unshadowed ∧
        ∀ n, o.limit = some n → (Eval.visitsAll o fuel ts m.restarted).length =
          (Eval.final (Eval.all o fuel ts m.restarted)).steps := by
  have hrun := fun fuel => (Eval.kept_unshadowed o).all fuel fun t (_ : t ∈ ts) =>
    Eval.unshadowed_mayRun t
  have hfinal : ∀ fuel, (Eval.final (Eval.all o fuel ts m.restarted)).chain.Unshadowed := by
    intro fuel
    have hend := (hrun fuel).ends (m := m.restarted) h
    generalize Eval.all o fuel ts m.restarted = r at hend
    cases hend with
    | ok _ hm => exact hm
    | error hm => exact hm
  refine ⟨hfinal o.fuel, fun fuel => ⟨fun v hv => ?_, hfinal fuel, fun n ho => ?_⟩⟩
  · obtain ⟨-, d, hm⟩ := (hrun fuel).visits (m := m.restarted) h v hv
    exact hm
  · rw [Eval.length_visitsAll ho fuel ts m.restarted]
    exact (Nat.zero_add _).symm

/-- A root with a function that defines another one and calls it, and an empty frame below it. -/
def definer : Machine where
  chain := [{}, { funcs := [(utf8 "f", ⟨utf8 "f", [utf8 "a"],
    some (.seq [.define (utf8 "g") [] (.var (utf8 "a")), .call (utf8 "g") []])⟩)] }]

/-- The function is called with an argument that defines the other one in the frame of the caller.
The body runs two frames further down and defines it again, which replaces the first definition. So
at the sixth and last visit, in the fifth frame, there is one function `g`. -/
theorem evalAll_unshadowed_definer :
    let o : Options := { limit := some 9 }
    let ts : List (Option Tree) :=
      [some (.call (utf8 "f") [.define (utf8 "g") [] (.literal 5)])]
    let seen := Eval.visitsAll o 9 ts definer.restarted
    definer.chain.Unshadowed ∧ (seen.map fun v => v.machine.chain.length) = [2, 2, 3, 4, 4, 5] ∧
      (seen.map fun v => v.machine.chain.binders (utf8 "g")) = [0, 0, 1, 1, 1, 1] ∧
      (∀ v ∈ seen, v.machine.chain.Unshadowed) ∧
      (Eval.final (evalAll o ts definer)).chain.Unshadowed := by
  intro o ts seen
  have h : definer.chain.Unshadowed := by
    intro x
    rw [definer, Chain.binders_cons, Chain.binders_cons]
    simp only [Chain.binders, List.countP_nil, Nat.zero_add]
    split <;> simp [Bindings.binds, Bindings.get?]
  have hrun := evalAll_unshadowed o ts definer h
  exact ⟨h, by decide +kernel, by decide +kernel, (hrun.2 9).1, hrun.1⟩

end TreeLang
