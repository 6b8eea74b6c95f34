import TreeLang.Proofs.Eval.Visits

/-!
# Limits on the visited trees

A run goes down to a tree inside another one, or on to the next turn of a loop, only after it has
counted a tree. So a run with a limit is halted by the limit before it uses up more fuel than the
limit (`Eval.all_lasts`).

A limit only ever cuts a run short: a run that does not meet its limit ends in the same way under
any greater limit and without one, and what a run prints up to its limit is the beginning of what it
prints under any greater limit and without one (`evalAll_limit`).
-/

set_option autoImplicit false

namespace TreeLang

namespace Eval

variable {α β : Type}

/-! ## Fuel enough for a limit -/

/-- Under the limit `n` a function counts at least `gain` trees when it yields a value, and with
`fuel` for the trees that are left it does not run out of fuel. -/
def Lasts (n fuel gain : Nat) (x : Eval α) : Prop :=
  ∀ m : Machine, m.steps ≤ n → n < fuel + m.steps →
    match x m with
    | .ok _ m' => m.steps + gain ≤ m'.steps ∧ m'.steps ≤ n
    | .error h _ => h ≠ .outOfFuel

namespace Lasts

variable {n fuel gain : Nat}

/-- What lasts with so much fuel lasts with less, from machines that have counted more. -/
theorem mono {x : Eval α} (h : Lasts n fuel gain x) {k : Nat} (hk : k ≤ fuel) :
    Lasts n k gain x :=
  fun m hm hn => h m hm (by omega)

theorem weaken {x : Eval α} (h : Lasts n fuel gain x) : Lasts n fuel 0 x := by
  intro m hm hn
  have hx := h m hm hn
  cases hr : x m with
  | ok v m' =>
    rw [hr] at hx
    exact ⟨by omega, hx.2⟩
  | error e m' =>
    rw [hr] at hx
    exact hx

/-- What comes after a function needs fuel only for the trees that are left then. -/
theorem bind_gain (gain : Nat) {x : Eval α} {f : α → Eval β} (hx : Lasts n (fuel + gain) gain x)
    (hf : ∀ v, Lasts n fuel 0 (f v)) : Lasts n (fuel + gain) gain (x >>= f) := by
  intro m hm hn
  have h := hx m hm hn
  cases hr : x m with
  | error e m' =>
    rw [hr] at h
    rw [bind_error hr]
    exact h
  | ok v m' =>
    rw [hr] at h
    obtain ⟨hgain, hle⟩ := h
    rw [bind_ok hr]
    have h' := hf v m' hle (by omega)
    cases hr' : f v m' with
    | error e m'' =>
      rw [hr'] at h'
      exact h'
    | ok w m'' =>
      rw [hr'] at h'
      exact ⟨by omega, h'.2⟩

theorem bind {x : Eval α} {f : α → Eval β} (hx : Lasts n fuel 0 x)
    (hf : ∀ v, Lasts n fuel 0 (f v)) : Lasts n fuel 0 (x >>= f) :=
  bind_gain 0 hx hf

/-- What looks at no count needs no fuel. -/
theorem countless {x : Eval α} (hx : Countless x) : Lasts n fuel 0 x := by
  intro m hm _
  have h := hx m 0 none
  cases hr : x m with
  | ok v m' =>
    rw [hr] at h
    exact ⟨by omega, by omega⟩
  | error e m' =>
    rw [hr] at h
    exact h.1

theorem check : Lasts n fuel 0 check := by
  intro m hm _
  unfold Eval.check
  cases m.checks with
  | none => exact ⟨Nat.le_refl _, hm⟩
  | some k =>
    cases k with
    | zero => exact Halt.noConfusion
    | succ k => exact ⟨Nat.le_refl _, hm⟩

/-- Counting a tree pays for one more fuel, unless the limit is met. -/
theorem step {o : Options} (ho : o.limit = some n) : Lasts n (fuel + 1) 1 (step o) := by
  intro m hm _
  unfold Eval.step
  rw [ho]
  by_cases h : n < m.steps + 1
  · simp [h]
  · simp [h]
    omega

/-- Entering and leaving need no fuel. -/
theorem around {before after : Machine → Machine} {x : Eval α} (hx : Lasts n fuel 0 x)
    (hb : ∀ m, (before m).steps = m.steps) (ha : ∀ m, (after m).steps = m.steps) :
    Lasts n fuel 0 (Eval.around before after x) := by
  intro m hm hn
  have h := hx (before m) (by rw [hb]; exact hm) (by rw [hb]; exact hn)
  unfold Eval.around
  cases hr : x (before m) with
  | error e m' =>
    rw [hr] at h
    exact h
  | ok v m' =>
    rw [hr] at h
    rw [hb] at h
    simp only [ha]
    exact h

/-- Every turn of a loop counts a tree, so a loop needs no more turns than there are trees left. -/
theorem repeated {test body : Eval Int64} (ht : Lasts n fuel 1 test) (hb : Lasts n fuel 0 body) :
    ∀ {k : Nat}, k ≤ fuel → ∀ last : Int64, Lasts n k 0 (repeated test body k last)
  | 0, _, _ => fun m hm hn => by omega
  | k + 1, hk, last => by
    refine bind check fun _ => weaken (bind_gain 1 (ht.mono hk) fun v => ?_)
    by_cases hv : v = 1
    · simp only [if_pos hv]
      exact bind (hb.mono (by omega)) fun w => repeated ht hb (by omega) w
    · simp only [if_neg hv]
      exact countless (countless_pure last)

/-- A tree that is run is counted. -/
theorem gain_tree {o : Options} (ho : o.limit = some n) {k : Nat} {t : Tree}
    (h : Lasts n fuel 0 (tree o k t)) : Lasts n fuel 1 (tree o k t) := by
  intro m hm hn
  have hx := h m hm hn
  cases hr : tree o k t m with
  | ok v m' =>
    rw [hr] at hx
    exact ⟨steps_lt_of_tree ho hr, hx.2⟩
  | error e m' =>
    rw [hr] at hx
    exact hx

/-- The rules for runs under a limit, with the fuel as index: a tree takes one, which is paid for by
counting it. -/
def logic {o : Options} (ho : o.limit = some n) : Logic Notes.blank o where
  Index := Nat
  Holds fuel x _ := Lasts n fuel 0 x
  MayRun i fuel _ := i = fuel
  Counted i j := i = j + 1
  Asked := Eq
  pure v := countless (countless_pure v)
  bind := bind
  duplicate _ _ := countless (countless_fail _)
  print v := countless (countless_print v)
  child hF m hm hn := hF m.chain.child trivial m hm hn
  inFrame _ hx := around hx (fun _ => rfl) fun _ => rfl
  inBody hx := around hx (fun _ => rfl) fun _ => rfl
  outOfFuel := by
    rintro _ t rfl m hm hn
    omega
  missing _ := countless (countless_fail _)
  step := by
    rintro _ fuel t x noted rfl hx
    exact weaken (bind_gain 1 (step ho) fun _ => hx fuel rfl)
  check hx := bind check fun _ => hx _ rfl
  loop := by
    rintro _ j fuel c b hfuel hj hc hb
    obtain rfl : j = fuel := by omega
    exact repeated (gain_tree ho hc) hb (Nat.le_refl j) 0
  lookup _ _ := countless (countless_lookup _)
  lookupFunc _ _ hF := bind (countless (countless_lookupFunc _)) fun g => hF g trivial
  declare v _ _ := countless (countless_declare _ v)
  assign v _ _ := countless (countless_assign _ v)
  define _ _ := countless (countless_define _ _)
  children hi hj _ := by
    rw [ite_self]
    omega
  args hi hj := hj.symm.trans hi
  body hi hj hk _ := by
    subst hk
    exact Nat.succ_inj.1 (hj.symm.trans hi)

end Lasts

/-- A run of trees under a limit ends with a value or an error. -/
theorem all_lasts {o : Options} {n fuel : Nat} (ho : o.limit = some n) (hn : n < fuel)
    (ts : List (Option Tree)) (m m' : Machine) :
    all o fuel ts m.restarted ≠ .error .outOfFuel m' := by
  intro h
  have hts : Lasts n fuel 0 (all o fuel ts) :=
    (Lasts.logic ho).all fuel fuel fun _ _ => rfl
  have hlast := hts m.restarted (Nat.zero_le n) (Nat.lt_of_lt_of_le hn (Nat.le_add_right _ _))
  rw [h] at hlast
  exact hlast rfl

/-- Machines with the same counts. -/
abbrev SameCounts (steps : Nat) (checks : Option Nat) (steps' : Nat) (checks' : Option Nat) : Prop :=
  steps' = steps ∧ checks' = checks

/-- A run follows itself. -/
theorem CutShort.refl {cut : Halt → Prop} {x : Eval α} (hx : Moves Machine.Extends x) :
    CutShort cut SameCounts x x := by
  refine ⟨?_, hx⟩
  rintro a b ⟨s, k, rfl, rfl, rfl⟩
  cases x a with
  | ok v m => exact .ok ⟨_, _, rfl, rfl, rfl⟩
  | error h m => exact .error ⟨_, _, rfl, rfl, rfl⟩

/-- More fuel does not change a run that does not run out of it. -/
theorem all_more_fuel (o : Options) {fuel fuel' : Nat} (h : fuel ≤ fuel')
    (ts : List (Option Tree)) (m : Machine)
    (hf : ∀ m', all o fuel ts m ≠ .error .outOfFuel m') : all o fuel' ts m = all o fuel ts m := by
  have S : Slack (· = .outOfFuel) SameCounts o o :=
    ⟨rfl, rfl, .refl (extends_step o), .refl extends_check⟩
  have hfollows := (S.all h ts).follows (a := m) (b := m) ⟨_, _, rfl, rfl, rfl⟩
  cases hr : all o fuel ts m with
  | ok v a =>
    rw [hr] at hfollows
    generalize all o fuel' ts m = r at hfollows ⊢
    cases hfollows with
    | ok hab =>
      obtain ⟨s, k, rfl, rfl, rfl⟩ := hab
      rfl
  | error e a =>
    rw [hr] at hfollows
    generalize all o fuel' ts m = r at hfollows ⊢
    cases hfollows with
    | error hab =>
      obtain ⟨s, k, rfl, rfl, rfl⟩ := hab
      rfl
    | cut hc _ =>
      subst hc
      exact absurd hr (hf a)

end Eval

/-! ## Limits -/

/-- The options with a limit on the visited trees. -/
def Options.limited (o : Options) (n : Nat) : Options := { o with limit := some n }

/-- The options without a limit. -/
def Options.unlimited (o : Options) : Options := { o with limit := none }

/-- Whether a run is halted by its limit. -/
def hitsLimit : EStateM.Result Halt Machine Int64 → Bool
  | .error (.error (.stepLimit _)) _ => true
  | _ => false

/-- Two runs end with the same value or are halted by the same cause, and leave the same machine but
for the number of trees counted. -/
inductive EndAlike :
    EStateM.Result Halt Machine Int64 → EStateM.Result Halt Machine Int64 → Prop
  | ok {v : Int64} {m : Machine} (steps : Nat) :
      EndAlike (.ok v m) (.ok v { m with steps := steps })
  | error {h : Halt} {m : Machine} (steps : Nat) :
      EndAlike (.error h m) (.error h { m with steps := steps })

/-- The text that a run leaves in a sink. -/
def outputOf (r : EStateM.Result Halt Machine Int64) (sink : Nat) : Text :=
  ((Eval.final r).sinks.get sink).text

namespace Eval

/-- The same checks are left, and if a run has a limit, the same number of trees is counted. -/
def CountsUnder (o : Options) (steps : Nat) (checks : Option Nat) (steps' : Nat)
    (checks' : Option Nat) : Prop :=
  checks' = checks ∧ (o.limit.isSome → steps' = steps)

/-- What cuts a run under the limit `n`. -/
def CutUnder (n : Nat) (h : Halt) : Prop := h = .outOfFuel ∨ h = .error (.stepLimit n)

/-- A limit leaves slack up to any greater one, and up to none. -/
theorem slack_limited (o : Options) (n : Nat) {o' : Options} (hr : o'.recorded = o.recorded)
    (ho : ∀ k, o'.limit = some k → n ≤ k) :
    Slack (CutUnder n) (CountsUnder o') (o.limited n) o' where
  fuel := Or.inl rfl
  recorded := hr
  step := by
    refine ⟨?_, extends_step o'⟩
    rintro a b ⟨s, k, rfl, rfl, hs⟩
    show Follows _ _ (if n < a.steps + 1 then _ else _) _
    by_cases hn : n < a.steps + 1
    · rw [if_pos hn]
      refine .cut (Or.inr rfl) ?_
      exact extends_step o' { a with steps := s }
    · rw [if_neg hn]
      unfold step
      cases hl : o'.limit with
      | none => exact .ok ⟨s, a.checks, rfl, rfl, by simp [hl]⟩
      | some k =>
        have hle := ho k hl
        rw [hl] at hs
        obtain rfl := hs rfl
        dsimp only
        rw [if_neg (by omega)]
        exact .ok ⟨a.steps + 1, a.checks, rfl, rfl, fun _ => rfl⟩
  check := by
    refine ⟨?_, extends_check⟩
    rintro a b ⟨s, k, rfl, rfl, hs⟩
    unfold check
    cases hc : a.checks with
    | none => exact .ok ⟨s, _, rfl, hc.symm ▸ rfl, hs⟩
    | some k =>
      cases k with
      | zero => exact .error ⟨s, _, rfl, hc.symm ▸ rfl, hs⟩
      | succ k => exact .ok ⟨s, some k, rfl, rfl, hs⟩

end Eval

section

variable (o o' : Options) (ts : List (Option Tree)) (m : Machine) {n fuel : Nat}

/-- A run with no smaller limit, or with none, and with fuel enough for the smaller limit, follows
the run with the smaller limit. -/
theorem follows_limited (hr : o'.recorded = o.recorded) (ho : ∀ k, o'.limit = some k → n ≤ k)
    (hn : n < fuel) :
    Eval.Follows (Eval.CutUnder n) (Eval.CountsUnder o') (evalAll (o.limited n) ts m)
      (Eval.all o' fuel ts m.restarted) := by
  refine ((Eval.slack_limited o n hr ho).all (Nat.succ_le_of_lt hn) ts).follows ?_
  exact ⟨_, _, rfl, rfl, fun _ => rfl⟩

/-- A run that does not meet its limit is followed to its end. -/
theorem endAlike_limited (hr : o'.recorded = o.recorded) (ho : ∀ k, o'.limit = some k → n ≤ k)
    (hn : n < fuel) (h : ¬ hitsLimit (evalAll (o.limited n) ts m)) :
    EndAlike (evalAll (o.limited n) ts m) (Eval.all o' fuel ts m.restarted) := by
  have hfollows := follows_limited o o' ts m hr ho hn
  have hlasts : ∀ m', evalAll (o.limited n) ts m ≠ .error .outOfFuel m' :=
    Eval.all_lasts (o := o.limited n) rfl (Nat.lt_succ_self n) ts m
  generalize evalAll (o.limited n) ts m = r at h hfollows hlasts
  generalize Eval.all o' fuel ts m.restarted = r' at hfollows
  cases hfollows with
  | ok hab =>
    obtain ⟨s, k, rfl, rfl, -⟩ := hab
    exact .ok s
  | error hab =>
    obtain ⟨s, k, rfl, rfl, -⟩ := hab
    exact .error s
  | cut hc _ =>
    rcases hc with rfl | rfl
    · exact absurd rfl (hlasts _)
    · exact absurd rfl h

/-- Runs that end alike are halted by their limit both, or neither is. -/
theorem EndAlike.hitsLimit_eq {r r' : EStateM.Result Halt Machine Int64} (h : EndAlike r r') :
    hitsLimit r = hitsLimit r' := by
  cases h with
  | ok s => rfl
  | @error h m s => rcases h with (_ | _ | _ | _ | _ | _ | _) | _ <;> rfl

/-- What is printed before a limit is met is also printed, as the first part, by any run that ends
under a greater limit or without one. -/
theorem output_limited (hr : o'.recorded = o.recorded) (ho : ∀ k, o'.limit = some k → n ≤ k)
    (hends : ∀ m', Eval.all o' fuel ts m.restarted ≠ .error .outOfFuel m') (sink : Nat) :
    outputOf (evalAll (o.limited n) ts m) sink <+:
      outputOf (Eval.all o' fuel ts m.restarted) sink := by
  rw [← Eval.all_more_fuel o' (Nat.le_max_left fuel (n + 1)) ts m.restarted hends]
  have hfollows := follows_limited o o' ts m hr ho (Nat.lt_of_lt_of_le (Nat.lt_succ_self n)
    (Nat.le_max_right fuel (n + 1)))
  exact hfollows.extends_final.text_prefix sink

/-- A limit on the visited trees only cuts a run short. A run that does not meet its limit ends
alike under any greater limit and without one. A run that meets its limit meets every smaller one as
well, and what it prints is where the output under any greater limit starts, and the output without
a limit, whenever that run ends. The bound on the limits is that of a machine integer. -/
theorem evalAll_limit {n k : Nat} (hnk : n ≤ k) (hk : k < 9223372036854775807) :
    (¬ hitsLimit (evalAll (o.limited n) ts m) →
      EndAlike (evalAll (o.limited n) ts m) (evalAll (o.limited k) ts m) ∧
        EndAlike (evalAll (o.limited n) ts m) (evalAll o.unlimited ts m)) ∧
      (hitsLimit (evalAll (o.limited n) ts m) →
        (∀ j, j ≤ n → hitsLimit (evalAll (o.limited j) ts m)) ∧
          (∀ sink, outputOf (evalAll (o.limited n) ts m) sink <+:
            outputOf (evalAll (o.limited k) ts m) sink) ∧
          (∀ fuel sink,
            (∀ m', Eval.all o.unlimited fuel ts m.restarted ≠ .error .outOfFuel m') →
              outputOf (evalAll (o.limited n) ts m) sink <+:
                outputOf (Eval.all o.unlimited fuel ts m.restarted) sink)) := by
  have hgreater : ∀ {j l : Nat}, j ≤ l → ∀ i, (o.limited l).limit = some i → j ≤ i := by
    intro j l hjl i hi
    cases hi
    exact hjl
  have hnone : ∀ i, o.unlimited.limit = some i → n ≤ i := by
    intro i hi
    cases hi
  refine ⟨fun h => ⟨?_, ?_⟩, fun h => ⟨fun j hj => ?_, fun sink => ?_, fun fuel sink hends => ?_⟩⟩
  · exact endAlike_limited o (o.limited k) ts m rfl (hgreater hnk) (Nat.lt_succ_of_le hnk) h
  · exact endAlike_limited o o.unlimited ts m rfl hnone (Nat.lt_of_le_of_lt hnk hk) h
  · by_contra hj'
    have halike := endAlike_limited o (o.limited n) ts m rfl (hgreater hj)
      (Nat.lt_succ_of_le hj) hj'
    exact hj' (halike.hitsLimit_eq.trans h)
  · exact output_limited o (o.limited k) ts m rfl (hgreater hnk)
      (Eval.all_lasts (o := o.limited k) rfl (Nat.lt_succ_self k) ts m) sink
  · exact output_limited o o.unlimited ts m rfl hnone hends sink

end

/-- A loop without end that prints two lines in each turn. -/
def printingLoop : Tree :=
  .loop (.literal 1) (.seq [.print (.literal 7), .print (.literal 8)])

/-- A loop without end meets the limit five with one line printed, and the limit nine with more. -/
theorem evalAll_limit_printingLoop :
    5 ≤ 9 ∧ 9 < 9223372036854775807 ∧
      hitsLimit (evalAll (Options.limited {} 5) [some printingLoop] { chain := [{}] }) ∧
      outputOf (evalAll (Options.limited {} 5) [some printingLoop] { chain := [{}] }) 0 =
        utf8 "7\n" ∧
      outputOf (evalAll (Options.limited {} 5) [some printingLoop] { chain := [{}] }) 0 <+:
        outputOf (evalAll (Options.limited {} 9) [some printingLoop] { chain := [{}] }) 0 := by
  have h : hitsLimit (evalAll (Options.limited {} 5) [some printingLoop] { chain := [{}] }) := by
    decide +kernel
  have hlimit := evalAll_limit {} [some printingLoop] { chain := [{}] }
    (show 5 ≤ 9 by decide) (by decide)
  exact ⟨by decide, by decide, h, by decide +kernel, (hlimit.2 h).2.1 0⟩

end TreeLang
