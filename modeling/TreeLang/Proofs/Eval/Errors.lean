import TreeLang.Proofs.Eval.Sinks
import TreeLang.Proofs.Eval.StepLimit
import TreeLang.Proofs.Scope.Functions

/-!
# Where errors come from

An error that names something names it in the role in which the code uses the name: a variable that
is undefined is read or assigned somewhere, one that is declared twice is declared or a parameter,
and a function that is undefined is called. The code is that of the trees at the start and of the
functions bound in the scope at the start. Functions are defined while a run goes on, but their
bodies are parts of this code, so it does not grow. The other errors tell of the limit, of a check
that was refused, or of a full sink; and a tree is never missing if every function has a body
(`evalAll_explained`).
-/

set_option autoImplicit false

namespace TreeLang

/-- The names in the code of a run with their roles: those in the trees, and those of the functions
that are bound in some frame of the scope, in their bodies included. -/
def CodeUses (ts : List Tree) (c : Chain) (r : Role) (x : Text) : Prop :=
  (∃ t ∈ ts, (r, x) ∈ t.uses) ∨
    ∃ f ∈ c, ∃ y g, f.funcs.get? y = some g ∧ (r, x) ∈ g.uses

/-- How an error comes about in a run that was started on one machine and left another one, with
names used in their roles as `P` says. -/
def EvalError.Explained (o : Options) (P : Role → Text → Prop) (start left : Machine) :
    EvalError → Prop
  | .undefinedVar x => P .read x ∨ P .assigned x
  | .duplicate x => P .declared x ∨ P .param x
  | .undefinedFunc x => P .called x
  | .stepLimit n => o.limit = some n ∧ n < left.steps
  | .canceled => start.checks.isSome ∧ left.checks = some 0
  | .sinkFull => (left.sinks.get start.chain.sink).room = some 0
  | .missingTree => False

/-- What explains an error depends on the counts and the sinks only. -/
theorem EvalError.Explained.congr {o : Options} {P : Role → Text → Prop} {start m m' : Machine}
    {e : EvalError} (h : e.Explained o P start m) (hsteps : m'.steps = m.steps)
    (hchecks : m'.checks = m.checks) (hsinks : m'.sinks = m.sinks) :
    e.Explained o P start m' := by
  cases e with
  | stepLimit n => exact ⟨h.1, hsteps ▸ h.2⟩
  | canceled => exact ⟨h.1, hchecks.trans h.2⟩
  | sinkFull => exact (congrArg (fun s => (Sinks.get s start.chain.sink).room) hsinks).trans h
  | _ => exact h

/-- The trees inside a tree obey what the tree does. -/
theorem Tree.Obeys.of_mem_children {P : Role → Text → Prop} {t u : Tree} (h : t.Obeys P)
    (hu : u ∈ t.children) : u.Obeys P := by
  intro n hn
  apply h
  cases t with
  | none => cases hu
  | literal v => cases hu
  | var x => cases hu
  | seq ts =>
    rw [uses, usesAll_eq_flatMap, List.mem_flatMap]
    exact ⟨u, hu, hn⟩
  | call f args =>
    rw [uses, usesAll_eq_flatMap, List.mem_cons, List.mem_flatMap]
    exact Or.inr ⟨u, hu, hn⟩
  | _ =>
    simp only [children, List.mem_cons, List.not_mem_nil, or_false] at hu
    rcases hu with rfl | rfl | rfl <;> simp [uses, hn]

/-! ## Runs -/

namespace Eval

variable {α : Type} {o : Options} {P : Role → Text → Prop} {start : Machine}

/-- All along a run, the code obeys the rule `P` for names, every function has a body, and the
checks have an end if they had one at the start. A halt is explained; where a full sink comes from
is left to `all_prints`. -/
def explaining (o : Options) (P : Role → Text → Prop) (start : Machine) : Conduct where
  machine _ m := m.chain.EachFunc (fun g => g.Obeys P ∧ g.body.isSome) ∧
    m.checks.isSome = start.checks.isSome
  frame f := f.EachFunc fun g => g.Obeys P ∧ g.body.isSome
  tree t := t.Obeys P
  func g := g.Obeys P ∧ g.body.isSome
  halt h m := ∀ e, h = .error e → e = .sinkFull ∨ e.Explained o P start m

/-- A halt is explained if its error is. -/
theorem explaining_halt {e : EvalError} {m : Machine} (h : e.Explained o P start m) :
    (explaining o P start).halt (.error e) m := by
  rintro _ ⟨⟩
  exact Or.inr h

/-- An error stays explained when frames and bodies are left. -/
theorem explaining_leave {h : Halt} {m m' : Machine} (hm : (explaining o P start).halt h m)
    (hsteps : m'.steps = m.steps) (hchecks : m'.checks = m.checks) (hsinks : m'.sinks = m.sinks) :
    (explaining o P start).halt h m' := by
  intro e he
  exact (hm e he).imp_right fun hx => hx.congr hsteps hchecks hsinks

/-- Every part of a run halts for a reason only. A function that is defined on the way has the names
of the tree that defines it. -/
theorem kept_explaining (o : Options) (P : Role → Text → Prop) (start : Machine) :
    (explaining o P start).Kept o where
  inside ht hu := ht.of_mem_children hu
  body := by
    rintro g ⟨hg, hbody⟩
    obtain ⟨b, hb⟩ := Option.isSome_iff_exists.1 hbody
    rw [hb]
    exact ((Function.obeys_iff g).1 hg).2.2 b hb
  outOfFuel _ := by
    rintro e ⟨⟩
  duplicate _ hg hx := explaining_halt (Or.inr (((Function.obeys_iff _).1 hg.1).2.1 _ hx))
  step d := by
    rintro m hm
    rw [step]
    cases hl : o.limit with
    | none => exact .ok trivial hm
    | some n =>
      dsimp only
      by_cases hn : n < m.steps + 1
      · rw [if_pos hn]
        exact .error (explaining_halt ⟨hl, hn⟩)
      · rw [if_neg hn]
        exact .ok trivial hm
  check d := by
    rintro m ⟨hfuncs, hchecks⟩
    rw [check]
    rcases hc : m.checks with _ | _ | k
    · exact .ok trivial ⟨hfuncs, hchecks⟩
    · rw [hc] at hchecks
      exact .error (explaining_halt ⟨hchecks.symm, hc⟩)
    · rw [hc] at hchecks
      exact .ok trivial ⟨hfuncs, hchecks⟩
  lookup d x ht := by
    rintro m hm
    rw [lookup]
    cases m.chain.lookup? x with
    | some v => exact .ok trivial hm
    | none => exact .error (explaining_halt (Or.inl (ht (.read, x) (by simp [Tree.uses]))))
  lookupFunc d f args ht := by
    rintro m hm
    rw [lookupFunc]
    cases hf : m.chain.lookupFunc? f with
    | some g => exact .ok (hm.1.lookupFunc? hf) hm
    | none => exact .error (explaining_halt (ht (.called, f) (by simp [Tree.uses])))
  declare d x e v ht := by
    rintro m hm
    rw [declare]
    cases hc : m.chain.declare? x v with
    | some c => exact .ok trivial ⟨hm.1.declare? hc, hm.2⟩
    | none => exact .error (explaining_halt (Or.inl (ht (.declared, x) (by simp [Tree.uses]))))
  assign d x e v ht := by
    rintro m hm
    rw [assign]
    cases hc : m.chain.assign? x v with
    | some c => exact .ok trivial ⟨hm.1.assign? hc, hm.2⟩
    | none => exact .error (explaining_halt (Or.inr (ht (.assigned, x) (by simp [Tree.uses]))))
  define d f ps b ht := by
    rintro m hm
    -- The new function has the names of the tree that defines it.
    have hg : Function.Obeys P ⟨f, ps, some b⟩ := ht
    exact .ok trivial ⟨hm.1.defineFunc ⟨hg, rfl⟩, hm.2⟩
  print d v := by
    rintro m hm
    rw [print]
    cases (m.sinks.get m.chain.sink).print? v with
    | some s => exact .ok trivial hm
    | none =>
      refine .error ?_
      rintro _ ⟨⟩
      exact Or.inl rfl
  child _ := Chain.eachFunc_child _
  bind hf hd := hf.declare? hd
  enter hm hf := ⟨hm.1.cons hf, hm.2⟩
  leave hm := ⟨hm.1.tail, hm.2⟩
  enterBody _ _ hm := hm
  leaveBody hm := hm
  haltLeave hm := explaining_leave hm rfl rfl rfl
  haltLeaveBody hm := explaining_leave hm rfl rfl rfl

/-- Every error of a run of trees is explained by their code. -/
theorem all_explained (o : Options) (fuel : Nat) (ts : List Tree) (m : Machine)
    (hbodies : m.chain.EachFunc fun g => g.body.isSome) {e : EvalError} {m' : Machine}
    (h : all o fuel (ts.map some) m = .error (.error e) m') :
    e.Explained o (CodeUses ts m.chain) m m' := by
  have hts : ∀ t ∈ ts.map some, (explaining o (CodeUses ts m.chain) m).mayRun t := by
    rw [List.forall_mem_map]
    intro t ht n hn
    exact Or.inl ⟨t, ht, hn⟩
  have hfuncs : m.chain.EachFunc fun g => g.Obeys (CodeUses ts m.chain) ∧ g.body.isSome := by
    intro f hf y g hg
    exact ⟨fun n hn => Or.inr ⟨f, hf, y, g, hg, hn⟩, hbodies f hf y g hg⟩
  have hend := ((kept_explaining o _ m).all fuel hts).ends (m := m) ⟨hfuncs, rfl⟩
  rw [h] at hend
  cases hend with
  | error hh =>
    rcases hh e rfl with rfl | hx
    · exact (all_prints o fuel (ts.map some) m).2 m' h
    · exact hx

end Eval

/-- What halts a run of trees, if something does: an error that is explained, or the end of the
fuel. -/
def HaltsExplained (o : Options) (ts : List Tree) (m : Machine)
    (r : EStateM.Result Halt Machine Int64) : Prop :=
  ∀ h m', r = .error h m' →
    h = .outOfFuel ∨ ∃ e, h = .error e ∧ e.Explained o (CodeUses ts m.chain) m m'

/-- Where the errors of an evaluation come from. If every function that is bound in the scope has a
body, then every error is explained: it names a variable or a function in a role in which it is used
in the trees or in the functions bound at the start, or the limit is exceeded, or a check was
refused, or the sink of the frame is full. No tree is ever missing. Under a limit, these errors are
all that halts a run. -/
theorem evalAll_explained (o : Options) (ts : List Tree) (m : Machine)
    (hbodies : m.chain.EachFunc fun g => g.body.isSome) :
    HaltsExplained o ts m (evalAll o (ts.map some) m) ∧
      (∀ fuel, HaltsExplained o ts m (Eval.all o fuel (ts.map some) m.restarted)) ∧
      (o.limit.isSome → ∀ m', evalAll o (ts.map some) m ≠ .error .outOfFuel m') := by
  have hall : ∀ fuel, HaltsExplained o ts m (Eval.all o fuel (ts.map some) m.restarted) := by
    intro fuel h m' hr
    cases h with
    | outOfFuel => exact Or.inl rfl
    | error e => exact Or.inr ⟨e, rfl, Eval.all_explained o fuel ts m.restarted hbodies hr⟩
  refine ⟨hall o.fuel, hall, fun hlimit m' => ?_⟩
  obtain ⟨n, hn⟩ := Option.isSome_iff_exists.1 hlimit
  exact Eval.all_lasts hn (by simp [Options.fuel, hn]) (ts.map some) m m'

/-- A scope with a function that defines one with the same parameter twice, and calls it. -/
def overlapping : Machine where
  chain := [{ funcs := [(utf8 "f", ⟨utf8 "f", [], some (.seq
    [.define (utf8 "g") [utf8 "a", utf8 "a"] (.var (utf8 "b")),
      .call (utf8 "g") [.literal 1, .literal 2]])⟩)] }]

/-- The call of the outer function fails with a parameter of the inner one, which neither the tree
at the start nor the scope at the start binds. -/
theorem evalAll_explained_overlapping :
    let o : Options := { limit := some 9 }
    let ts : List Tree := [.call (utf8 "f") []]
    (overlapping.chain.EachFunc fun g => g.body.isSome) ∧
      outcomeOf (evalAll o (ts.map some) overlapping) = .error (.error (.duplicate (utf8 "a"))) ∧
      (CodeUses ts overlapping.chain .declared (utf8 "a") ∨
        CodeUses ts overlapping.chain .param (utf8 "a")) := by
  intro o ts
  have hbodies : overlapping.chain.EachFunc fun g => g.body.isSome := by
    intro f hf
    apply Frame.EachFunc.of_forall_mem
    simp only [overlapping, List.mem_singleton] at hf
    simp [hf]
  have hout : outcomeOf (evalAll o (ts.map some) overlapping) =
      .error (.error (.duplicate (utf8 "a"))) := by decide +kernel
  refine ⟨hbodies, hout, ?_⟩
  have hx := (evalAll_explained o ts overlapping hbodies).1
  generalize evalAll o (ts.map some) overlapping = r at hout hx
  cases r with
  | ok v m' => cases hout
  | error h m' =>
    cases hout
    rcases hx _ m' rfl with hfuel | ⟨e, he, hx⟩
    · cases hfuel
    · cases he
      exact hx

end TreeLang
