import TreeLang.Proofs.Eval.Simulation

/-!
# Runs that are cut short

Two runs of the same trees from the same machine differ only in what they may spend: fuel, steps and
checks. As long as the first one is not cut for lack of one of these, the second one does the same,
so they end alike; and when the first one is cut, the second one has printed all that the first one
has, and goes on from there (`Slack.all`).

What can cut the first run, and how the counts of the two runs are related, is left open here. It is
enough that counting a tree and asking to go on keep the counts related or cut the first run, since
nothing else that a run does looks at the counts (`Countless`, `simulation_alongside`).
-/

set_option autoImplicit false

namespace TreeLang

namespace Eval

open Machine (Extends)

/-! ## Following -/

variable {α : Type}

/-- Machines that are the same but for their counts, which are related by `C`. -/
def Alongside (C : Nat → Option Nat → Nat → Option Nat → Prop) (a b : Machine) : Prop :=
  ∃ steps checks, b = { a with steps := steps, checks := checks } ∧ C a.steps a.checks steps checks

/-- How a run ends that is followed: the one that follows ends in the same way, unless what halted
the first run is a cut, after which the other one may go on. -/
inductive Follows (cut : Halt → Prop) (C : Nat → Option Nat → Nat → Option Nat → Prop) :
    EStateM.Result Halt Machine α → EStateM.Result Halt Machine α → Prop
  | ok {v : α} {a b : Machine} : Alongside C a b → Follows cut C (.ok v a) (.ok v b)
  | error {h : Halt} {a b : Machine} : Alongside C a b → Follows cut C (.error h a) (.error h b)
  | cut {h : Halt} {a : Machine} {r : EStateM.Result Halt Machine α} :
      cut h → Extends a (final r) → Follows cut C (.error h a) r

/-- The runs of the second function follow those of the first one, and only add to what was
printed. -/
structure CutShort (cut : Halt → Prop) (C : Nat → Option Nat → Nat → Option Nat → Prop)
    (x y : Eval α) : Prop where
  follows : ∀ {a b : Machine}, Alongside C a b → Follows cut C (x a) (y b)
  extends_ : Moves Extends y

/-- What the runs under the first options lack, the runs under the second options may have. -/
structure Slack (cut : Halt → Prop) (C : Nat → Option Nat → Nat → Option Nat → Prop)
    (o o' : Options) : Prop where
  fuel : cut .outOfFuel
  recorded : o'.recorded = o.recorded
  step : CutShort cut C (step o) (step o')
  check : CutShort cut C check check

variable {cut : Halt → Prop} {C : Nat → Option Nat → Nat → Option Nat → Prop}

theorem Alongside.chain {a b : Machine} (h : Alongside C a b) : b.chain = a.chain := by
  obtain ⟨s, k, rfl, -⟩ := h
  rfl

theorem Alongside.sinks {a b : Machine} (h : Alongside C a b) : b.sinks = a.sinks := by
  obtain ⟨s, k, rfl, -⟩ := h
  rfl

/-- A run that follows another one has printed all that the other one has. -/
theorem Follows.extends_final {r r' : EStateM.Result Halt Machine α} (h : Follows cut C r r') :
    Machine.Extends (final r) (final r') := by
  cases h with
  | ok hab => exact .of_sinks hab.sinks
  | error hab => exact .of_sinks hab.sinks
  | cut _ he => exact he

/-- A function that needs no fuel and neither looks at the counts nor changes them. -/
def Countless (x : Eval α) : Prop :=
  ∀ (m : Machine) (s : Nat) (k : Option Nat),
    match x m with
    | .ok v m' => m'.steps = m.steps ∧ m'.checks = m.checks ∧
        x { m with steps := s, checks := k } = .ok v { m' with steps := s, checks := k }
    | .error h m' => h ≠ .outOfFuel ∧ m'.steps = m.steps ∧ m'.checks = m.checks ∧
        x { m with steps := s, checks := k } = .error h { m' with steps := s, checks := k }

theorem countless_pure (v : α) : Countless (pure v : Eval α) := fun _ _ _ => ⟨rfl, rfl, rfl⟩

/-- A failure looks at no count. -/
theorem countless_fail (e : EvalError) : Countless (fail e : Eval α) :=
  fun _ _ _ => ⟨Halt.noConfusion, rfl, rfl, rfl⟩

theorem countless_lookup (x : Text) : Countless (lookup x) := by
  intro m s k
  unfold lookup
  cases m.chain.lookup? x with
  | some v => exact ⟨rfl, rfl, rfl⟩
  | none => exact ⟨Halt.noConfusion, rfl, rfl, rfl⟩

theorem countless_lookupFunc (x : Text) : Countless (lookupFunc x) := by
  intro m s k
  unfold lookupFunc
  cases m.chain.lookupFunc? x with
  | some f => exact ⟨rfl, rfl, rfl⟩
  | none => exact ⟨Halt.noConfusion, rfl, rfl, rfl⟩

theorem countless_declare (x : Text) (v : Int64) : Countless (declare x v) := by
  intro m s k
  unfold declare
  cases m.chain.declare? x v with
  | some c => exact ⟨rfl, rfl, rfl⟩
  | none => exact ⟨Halt.noConfusion, rfl, rfl, rfl⟩

theorem countless_assign (x : Text) (v : Int64) : Countless (assign x v) := by
  intro m s k
  unfold assign
  cases m.chain.assign? x v with
  | some c => exact ⟨rfl, rfl, rfl⟩
  | none => exact ⟨Halt.noConfusion, rfl, rfl, rfl⟩

theorem countless_define (x : Text) (f : Function) : Countless (define x f) :=
  fun _ _ _ => ⟨rfl, rfl, rfl⟩

theorem countless_print (v : Int64) : Countless (print v) := by
  intro m s k
  unfold print
  cases (m.sinks.get m.chain.sink).print? v with
  | some t => exact ⟨rfl, rfl, rfl⟩
  | none => exact ⟨Halt.noConfusion, rfl, rfl, rfl⟩

/-! ## The coupling -/

/-- Machines that are the same but for their counts, with the same trees and names. -/
def alongside (cut : Halt → Prop) (C : Nat → Option Nat → Nat → Option Nat → Prop) : Coupling :=
  sameCode (Alongside C) cut .printed

variable {d : Nat} {o o' : Options}

/-- To follow is to agree, for machines that are the same but for their counts. -/
theorem follows_iff_agree {r r' : EStateM.Result Halt Machine α} :
    Follows cut C r r' ↔ Agree (alongside cut C) d Eq r r' := by
  constructor
  · rintro (hab | hab | ⟨hc, he⟩)
    · exact .ok rfl hab
    · exact .error rfl hab
    · exact .cut hc he
  · rintro (⟨rfl, hab⟩ | ⟨rfl, hab⟩ | ⟨hc, he⟩)
    · exact .ok hab
    · exact .error hab
    · exact .cut hc he

/-- What looks at no count does the same whatever the counts are. -/
theorem Countless.agrees {x : Eval α} (hx : Countless x) {V : α → α → Prop} (hV : ∀ v, V v v) :
    Agrees (alongside cut C) d V x x := by
  rintro a b ⟨s, k, rfl, hC⟩
  have h := hx a s k
  cases hr : x a with
  | ok v a' =>
    rw [hr] at h
    obtain ⟨hs, hk, hb⟩ := h
    rw [hb]
    exact .ok (hV v) ⟨s, k, rfl, by rwa [hs, hk]⟩
  | error e a' =>
    rw [hr] at h
    obtain ⟨-, hs, hk, hb⟩ := h
    rw [hb]
    exact .error rfl ⟨s, k, rfl, by rwa [hs, hk]⟩

/-- Machines that differ in their counts have the same scope. -/
theorem sameScope_alongside : SameScope (Alongside C) where
  chain hab := hab.chain
  withChain := by
    rintro a _ c ⟨s, k, rfl, hC⟩
    exact ⟨s, k, rfl, hC⟩

/-- Only counting and asking look at the counts. -/
theorem simulation_alongside (hr : o'.recorded = o.recorded)
    (hstep : ∀ d, Agrees (alongside cut C) d Eq (step o) (step o'))
    (hcheck : ∀ d, Agrees (alongside cut C) d Eq check check) :
    Simulation (alongside cut C) o o' := by
  apply simulation_sameCode sameScope_alongside hstep hcheck
  · exact fun d v => (countless_print v).agrees fun _ => rfl
  · rintro a _ f n ⟨s, k, rfl, hC⟩
    exact ⟨s, k, by simp only [enterBody, hr], hC⟩
  · rintro a _ ⟨s, k, rfl, hC⟩
    exact ⟨s, k, rfl, hC⟩
  · exact fun _ {a b} hab => Extends.of_sinks hab.sinks

/-- The run of trees with more of what it may spend follows the one with less. -/
theorem Slack.all (S : Slack cut C o o') {fuel fuel' : Nat} (h : fuel ≤ fuel')
    (ts : List (Option Tree)) : CutShort cut C (Eval.all o fuel ts) (Eval.all o' fuel' ts) := by
  have hsim : Simulation (alongside cut C) o o' :=
    simulation_alongside S.recorded (fun _ _ _ hab => follows_iff_agree.1 (S.step.follows hab))
      fun _ _ _ hab => follows_iff_agree.1 (S.check.follows hab)
  have hall := hsim.all (Or.inr ⟨S.fuel, h⟩) 0 (Tree.forall₂_rel_eq ts)
  exact ⟨fun hab => follows_iff_agree.2 (hall.agrees hab), hall.extends_⟩

end Eval

end TreeLang
