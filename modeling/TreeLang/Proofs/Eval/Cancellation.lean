import TreeLang.Proofs.Eval.Halting

/-!
# Canceled runs

A run asks whether it may go on before every turn of a loop, and in every call once the function is
found. Two runs of the same trees that are given different numbers of checks do the same until the
one with fewer checks is refused one. So checks only ever cut a run short (`evalAll_checks`): a run
that is not canceled ends in the same way with any more checks, and what a canceled run has printed
is where the output of the longer runs starts.

The other way round, a run that may go on whenever it asks does so only finitely often, so some
number of checks is enough for it (`Eval.all_enough`).
-/

set_option autoImplicit false

namespace TreeLang

/-- The machine with another number of checks that let it go on, or with no end to them. -/
def Machine.withChecks (m : Machine) (checks : Option Nat) : Machine := { m with checks := checks }

/-- A run is canceled: it asked whether it may go on, and was told that it may not. -/
abbrev Canceled (r : EStateM.Result Halt Machine Int64) : Prop :=
  haltOf r = some (.error .canceled)

/-- How a run ends, without the checks that are left. -/
def unchecked : EStateM.Result Halt Machine Int64 → EStateM.Result Halt Machine Int64
  | .ok v m => .ok v (m.withChecks none)
  | .error h m => .error h (m.withChecks none)

/-- Runs with different numbers of checks, which only ever cut them short. -/
structure CutByChecks (run : Option Nat → EStateM.Result Halt Machine Int64) : Prop where
  /-- A run that is not canceled ends with the same value or halt, output and scope under more
  checks, and if there is no end to them. -/
  alike : ∀ {k}, ¬ Canceled (run (some k)) →
    (∀ k', k ≤ k' → unchecked (run (some k')) = unchecked (run (some k))) ∧
      unchecked (run none) = unchecked (run (some k))
  /-- A canceled run is also canceled under fewer checks. -/
  fewer : ∀ {k}, Canceled (run (some k)) → ∀ j, j ≤ k → Canceled (run (some j))
  /-- What a canceled run has printed is where the output under more checks starts, and the output
  if there is no end to them. -/
  output : ∀ {k}, Canceled (run (some k)) → ∀ sink,
    (∀ k', k ≤ k' → outputOf (run (some k)) sink <+: outputOf (run (some k')) sink) ∧
      outputOf (run (some k)) sink <+: outputOf (run none) sink

namespace Eval

/-! ## More checks -/

/-- No fewer checks: where the second number is limited, the first one is no greater. -/
def MoreChecks (checks checks' : Option Nat) : Prop :=
  ∀ k', checks' = some k' → ∃ k, k ≤ k' ∧ checks = some k

/-- The same trees are counted, and no fewer checks are left. -/
def CountsWithMore (steps : Nat) (checks : Option Nat) (steps' : Nat) (checks' : Option Nat) :
    Prop :=
  steps' = steps ∧ MoreChecks checks checks'

/-- A refused check is what cuts a run. -/
def Refused (h : Halt) : Prop := h = .error .canceled

/-- A check that the first run passes is passed by the second one as well; where the first run is
refused, the second one may go on by itself. -/
theorem agrees_check_more (d : Nat) : Agrees (alongside Refused CountsWithMore) d Eq check check := by
  rintro a b ⟨s, checks', rfl, rfl, hmore⟩
  unfold check
  cases hc : a.checks with
  | none =>
    rw [hc] at hmore
    cases checks' with
    | none => exact .ok rfl ⟨_, _, rfl, rfl, by rw [hc]; exact hmore⟩
    | some k' =>
      obtain ⟨k, -, hk⟩ := hmore k' rfl
      cases hk
  | some k =>
    cases k with
    | zero =>
      refine .cut rfl ?_
      exact (extends_check { a with checks := checks' })
    | succ k =>
      cases checks' with
      | none => exact .ok rfl ⟨_, _, rfl, rfl, by simp [MoreChecks]⟩
      | some k' =>
        obtain ⟨j, hj, hk⟩ := hmore k' rfl
        rw [hc] at hk
        cases hk
        cases k' with
        | zero => omega
        | succ k' =>
          refine .ok rfl ⟨_, _, rfl, rfl, ?_⟩
          rintro _ ⟨⟩
          exact ⟨k, by omega, rfl⟩

/-- Counting a tree does not depend on the checks. -/
theorem agrees_step_more (o : Options) (d : Nat) :
    Agrees (alongside Refused CountsWithMore) d Eq (step o) (step o) := by
  apply agrees_step 0
  · exact Option.map_id_apply.symm
  · exact fun _ => rfl
  · rintro a _ ⟨s, checks', rfl, rfl, hmore⟩
    exact ⟨rfl, fun _ => ⟨_, _, rfl, rfl, hmore⟩⟩

/-- A run with more checks and the same fuel follows the one with fewer. -/
theorem follows_checks (o : Options) (fuel : Nat) (ts : List (Option Tree)) (m : Machine)
    {checks checks' : Option Nat} (h : MoreChecks checks checks') :
    Follows Refused CountsWithMore (all o fuel ts (m.withChecks checks))
      (all o fuel ts (m.withChecks checks')) := by
  have hsim : Simulation (alongside Refused CountsWithMore) o o :=
    simulation_alongside rfl (agrees_step_more o) agrees_check_more
  have hall := hsim.all (Or.inl (Eq.refl fuel)) 0 (Tree.forall₂_rel_eq ts)
  exact follows_iff_agree.2 (hall.agrees ⟨m.steps, checks', rfl, rfl, h⟩)

/-- A run that follows one that is not canceled ends like it, but for the checks that are left. -/
theorem Follows.unchecked_eq {r r' : EStateM.Result Halt Machine Int64}
    (h : Follows Refused CountsWithMore r r') (hr : ¬ Canceled r) : unchecked r' = unchecked r := by
  cases h with
  | ok hab =>
    obtain ⟨s, k, rfl, rfl, -⟩ := hab
    rfl
  | error hab =>
    obtain ⟨s, k, rfl, rfl, -⟩ := hab
    rfl
  | cut hc _ =>
    cases hc
    exact absurd rfl hr

end Eval

theorem haltOf_unchecked (r : EStateM.Result Halt Machine Int64) : haltOf (unchecked r) = haltOf r := by
  cases r <;> rfl

namespace Eval

/-- Runs with the same fuel are only cut short by their checks. -/
theorem all_cutByChecks (o : Options) (fuel : Nat) (ts : List (Option Tree)) (m : Machine) :
    CutByChecks fun checks => all o fuel ts (m.withChecks checks) := by
  have hsome : ∀ {j k : Nat}, j ≤ k → MoreChecks (some j) (some k) := by
    rintro j k hjk _ ⟨⟩
    exact ⟨j, hjk, rfl⟩
  have hnone : ∀ {k : Nat}, MoreChecks (some k) none := by simp [MoreChecks]
  constructor
  · intro k hk
    constructor
    · intro k' hkk'
      exact (follows_checks o fuel ts m (hsome hkk')).unchecked_eq hk
    · exact (follows_checks o fuel ts m hnone).unchecked_eq hk
  · intro k hk j hj
    -- were the run with fewer checks not canceled, the one with more would end like it
    by_contra hnot
    have heq := (follows_checks o fuel ts m (hsome hj)).unchecked_eq hnot
    rw [Canceled, ← haltOf_unchecked, heq, haltOf_unchecked] at hk
    exact hnot hk
  · intro k _ sink
    constructor
    · intro k' hkk'
      exact (follows_checks o fuel ts m (hsome hkk')).extends_final.text_prefix sink
    · exact (follows_checks o fuel ts m hnone).extends_final.text_prefix sink

end Eval

/-- Checks only ever cut a run short, whatever its options, its trees and the scope it starts in. A
run that is not canceled ends alike under more checks and if there is no end to them; a run that is
canceled is canceled under fewer checks as well, and what it has printed is where the output of the
runs under more checks starts. This holds of the runs with the fuel they are given, and with any
other fuel. -/
theorem evalAll_checks (o : Options) (ts : List (Option Tree)) (m : Machine) :
    (CutByChecks fun checks => evalAll o ts (m.withChecks checks)) ∧
      ∀ fuel, CutByChecks fun checks => Eval.all o fuel ts (m.restarted.withChecks checks) :=
  ⟨Eval.all_cutByChecks o o.fuel ts m.restarted,
    fun fuel => Eval.all_cutByChecks o fuel ts m.restarted⟩

/-- A loop without end that may go on once prints two lines, and is then canceled; it is canceled at
once if it may not go on at all, and prints these lines first if it may go on more often. -/
theorem evalAll_checks_printingLoop :
    let run := fun checks =>
      evalAll (Options.limited {} 20) [some printingLoop] (Machine.withChecks { chain := [{}] } checks)
    Canceled (run (some 1)) ∧ outputOf (run (some 1)) 0 = utf8 "7\n8\n" ∧
      Canceled (run (some 0)) ∧ outputOf (run (some 1)) 0 <+: outputOf (run (some 3)) 0 := by
  intro run
  have hrun : CutByChecks run :=
    (evalAll_checks (Options.limited {} 20) [some printingLoop] { chain := [{}] }).1
  have hcanceled : Canceled (run (some 1)) := by decide +kernel
  refine ⟨hcanceled, by decide +kernel, hrun.fewer hcanceled 0 (by decide), ?_⟩
  exact (hrun.output hcanceled 0).1 3 (by decide)

/-! ## Checks enough -/

namespace Eval

variable {α β : Type}

/-- If there is no end to the checks, a run leaves it at that and is not canceled, and it asks only
finitely often: with so many checks and `j` more it does the same, and leaves `j`. -/
def AsksFinitely (x : Eval α) : Prop :=
  ∀ m : Machine, m.checks = none →
    match x m with
    | .ok v m' => m'.checks = none ∧
        ∃ k, ∀ j, x (m.withChecks (some (k + j))) = .ok v (m'.withChecks (some j))
    | .error h m' => h ≠ .error .canceled ∧
        ∃ k, ∀ j, x (m.withChecks (some (k + j))) = .error h (m'.withChecks (some j))

namespace AsksFinitely

/-- What looks at no count and does not cancel never asks. -/
theorem countless {x : Eval α} (hx : Countless x)
    (hnot : ∀ m m', x m ≠ .error (.error .canceled) m') : AsksFinitely x := by
  intro m hm
  have h : ∀ j, _ := fun j => hx m m.steps (some j)
  cases hr : x m with
  | ok v m' =>
    simp only [hr] at h ⊢
    obtain ⟨hsteps, hchecks, -⟩ := h 0
    refine ⟨hchecks.trans hm, 0, fun j => ?_⟩
    rw [Nat.zero_add, Machine.withChecks, (h j).2.2, ← hsteps, Machine.withChecks]
  | error e m' =>
    simp only [hr] at h ⊢
    obtain ⟨-, hsteps, -⟩ := h 0
    refine ⟨?_, 0, fun j => ?_⟩
    · rintro rfl
      exact hnot m m' hr
    · rw [Nat.zero_add, Machine.withChecks, (h j).2.2.2, ← hsteps, Machine.withChecks]

theorem halt {h : Halt} (hh : h ≠ .error .canceled) : AsksFinitely (throw h : Eval α) := by
  intro m _
  refine ⟨hh, 0, fun j => ?_⟩
  rw [Nat.zero_add]
  rfl

/-- What comes next asks so many times more. -/
theorem bind {x : Eval α} {f : α → Eval β} (hx : AsksFinitely x) (hf : ∀ v, AsksFinitely (f v)) :
    AsksFinitely (x >>= f) := by
  intro m hm
  have h := hx m hm
  cases hr : x m with
  | error e m' =>
    simp only [hr] at h
    obtain ⟨he, k, hk⟩ := h
    rw [bind_error hr]
    exact ⟨he, k, fun j => bind_error (hk j)⟩
  | ok v m' =>
    simp only [hr] at h
    obtain ⟨hm', k, hk⟩ := h
    rw [bind_ok hr]
    have h' := hf v m' hm'
    -- what is left of the checks after the first run is there for the second one
    have hsum : ∀ l j, (x >>= f) (m.withChecks (some (k + l + j))) =
        f v (m'.withChecks (some (l + j))) := by
      intro l j
      rw [Nat.add_assoc]
      exact bind_ok (hk (l + j))
    cases hr' : f v m' with
    | error e m'' =>
      simp only [hr'] at h' ⊢
      obtain ⟨he, l, hl⟩ := h'
      exact ⟨he, k + l, fun j => (hsum l j).trans (hl j)⟩
    | ok w m'' =>
      simp only [hr'] at h' ⊢
      obtain ⟨hm'', l, hl⟩ := h'
      exact ⟨hm'', k + l, fun j => (hsum l j).trans (hl j)⟩

/-- A check asks once. -/
theorem check : AsksFinitely check := by
  intro m hm
  have hr : Eval.check m = .ok () m := by simp [Eval.check, hm]
  simp only [hr]
  refine ⟨hm, 1, fun j => ?_⟩
  rw [Nat.add_comm]
  rfl

/-- Counting a tree asks for nothing. -/
theorem step (o : Options) : AsksFinitely (step o) := by
  intro m hm
  unfold Eval.step
  cases o.limit with
  | none => exact ⟨hm, 0, fun j => by rw [Nat.zero_add]⟩
  | some n =>
    by_cases hn : n < m.steps + 1
    · simp only [if_pos hn]
      refine ⟨by simp, 0, fun j => ?_⟩
      rw [Nat.zero_add]
      exact if_pos hn
    · simp only [if_neg hn]
      refine ⟨hm, 0, fun j => ?_⟩
      rw [Nat.zero_add]
      exact if_neg hn

theorem lookup (x : Text) : AsksFinitely (lookup x) := by
  apply countless (countless_lookup x)
  intro m m'
  unfold Eval.lookup
  cases m.chain.lookup? x <;> simp

theorem lookupFunc (f : Text) : AsksFinitely (lookupFunc f) := by
  apply countless (countless_lookupFunc f)
  intro m m'
  unfold Eval.lookupFunc
  cases m.chain.lookupFunc? f <;> simp

theorem declare (x : Text) (v : Int64) : AsksFinitely (declare x v) := by
  apply countless (countless_declare x v)
  intro m m'
  unfold Eval.declare
  cases m.chain.declare? x v <;> simp

theorem assign (x : Text) (v : Int64) : AsksFinitely (assign x v) := by
  apply countless (countless_assign x v)
  intro m m'
  unfold Eval.assign
  cases m.chain.assign? x v <;> simp

theorem define (f : Text) (g : Function) : AsksFinitely (define f g) :=
  countless (countless_define f g) fun _ _ h => by cases h

theorem print (v : Int64) : AsksFinitely (print v) := by
  apply countless (countless_print v)
  intro m m'
  unfold Eval.print
  cases (m.sinks.get m.chain.sink).print? v <;> simp

/-- Entering and leaving ask for nothing. -/
theorem around {before after : Machine → Machine} {x : Eval α} (hx : AsksFinitely x)
    (hb : ∀ m c, before (m.withChecks c) = (before m).withChecks c)
    (hbn : ∀ m, (before m).checks = m.checks)
    (ha : ∀ m c, after (m.withChecks c) = (after m).withChecks c)
    (han : ∀ m, (after m).checks = m.checks) : AsksFinitely (Eval.around before after x) := by
  intro m hm
  have h := hx (before m) ((hbn m).trans hm)
  unfold Eval.around
  cases hr : x (before m) with
  | error e m' =>
    simp only [hr] at h ⊢
    obtain ⟨he, k, hk⟩ := h
    exact ⟨he, k, fun j => by rw [hb, hk, ← ha]⟩
  | ok v m' =>
    simp only [hr] at h ⊢
    obtain ⟨hm', k, hk⟩ := h
    exact ⟨(han m').trans hm', k, fun j => by rw [hb, hk, ← ha]⟩

/-- Every part of a run asks only finitely often. -/
def plain (o : Options) : Plain Notes.blank o where
  Holds _ x _ := AsksFinitely x
  pure v := countless (countless_pure v) fun _ _ h => by cases h
  bind := bind
  duplicate _ _ := halt (by simp)
  print := print
  child hF m hm := hF m.chain.child trivial m hm
  inFrame _ hx := around hx (fun _ _ => rfl) (fun _ => rfl) (fun _ _ => rfl) fun _ => rfl
  inBody hx := around hx (fun _ _ => rfl) (fun _ => rfl) (fun _ _ => rfl) fun _ => rfl
  outOfFuel := halt Halt.noConfusion
  missing _ := halt (by simp)
  step _ := step o
  check := check
  lookup _ := lookup _
  lookupFunc _ hF := bind (lookupFunc _) fun g => hF g trivial
  declare v _ := declare _ v
  assign v _ := assign _ v
  define _ := define _ _

end AsksFinitely

/-- Some number of checks is enough for a run of trees not to be canceled. -/
theorem all_enough (o : Options) (fuel : Nat) (ts : List (Option Tree)) (m : Machine) :
    ∃ k, ¬ Canceled (all o fuel ts (m.withChecks (some k))) := by
  have hall : AsksFinitely (all o fuel ts) :=
    (AsksFinitely.plain o).logic.all fuel () fun _ _ => trivial
  have h := hall (m.withChecks none) rfl
  cases hr : all o fuel ts (m.withChecks none) with
  | ok v m' =>
    simp only [hr] at h
    obtain ⟨-, k, hk⟩ := h
    refine ⟨k, fun hcanceled => ?_⟩
    rw [show m.withChecks (some k) = (m.withChecks none).withChecks (some (k + 0)) from rfl, hk 0]
      at hcanceled
    cases hcanceled
  | error e m' =>
    simp only [hr] at h
    obtain ⟨he, k, hk⟩ := h
    refine ⟨k, fun hcanceled => ?_⟩
    rw [show m.withChecks (some k) = (m.withChecks none).withChecks (some (k + 0)) from rfl, hk 0]
      at hcanceled
    exact he (Option.some.inj hcanceled)

end Eval

end TreeLang
