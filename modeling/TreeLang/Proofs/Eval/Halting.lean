import TreeLang.Proofs.Eval.StepLimit
import TreeLang.Proofs.Scope.Functions
import TreeLang.Proofs.Tree.Size

/-!
# Bounded runs halt

A run is bounded by a limit on the visited trees, or by the checks that let it go on. Under a limit
every visited tree counts. Checks are made only where a run can come back to a tree that it has
visited before: at every turn of a loop and at every call. Between two checks a run only goes down
into a tree, so it needs no more fuel than the greatest tree has trees inside it, and a function
that a run defines is part of a tree that it has. Hence the fuel for a run with checks is bounded by
their number times the size of the code (`Eval.haltingFuel`), and with that much fuel or more the
run comes to one and the same end (`evalAll_halts`).
-/

set_option autoImplicit false

namespace TreeLang

/-! ## The size of code -/

/-- The size of a tree that may be missing. -/
def Tree.sizeOfPresent (t : Option Tree) : Nat := (t.map Tree.size).getD 0

/-- The size of the bodies of the functions in a scope, added up. -/
def Chain.codeSize (c : Chain) : Nat :=
  (c.map fun f => (f.funcs.map fun b => Tree.sizeOfPresent b.2.body).sum).sum

/-- The size of the code of a run: of its trees, and of the functions that it finds. -/
def Eval.codeSize (ts : List (Option Tree)) (m : Machine) : Nat :=
  (ts.map Tree.sizeOfPresent).sum + m.chain.codeSize

/-- Fuel for a run of trees that passes `k` checks. -/
def Eval.haltingFuel (k : Nat) (ts : List (Option Tree)) (m : Machine) : Nat :=
  (k + 1) * (codeSize ts m + 1)

/-! ## Scopes with small functions -/

variable {B : Nat}

/-- The body of a function has at most the size `B`. -/
def Function.Within (B : Nat) (g : Function) : Prop := Tree.sizeOfPresent g.body ≤ B

/-- The functions that a frame binds have at most the size `B`. -/
def Frame.Within (B : Nat) (f : Frame) : Prop := f.EachFunc (Function.Within B)

namespace Chain

/-- The functions that a scope binds have at most the size `B`. -/
def Within (B : Nat) (c : Chain) : Prop := c.EachFunc (Function.Within B)

/-- No function of a scope is greater than all of them together. -/
theorem within_codeSize (c : Chain) : c.Within c.codeSize := by
  intro f hf
  apply Frame.EachFunc.of_forall_mem
  intro b hb
  have hframe : Tree.sizeOfPresent b.2.body ≤
      (f.funcs.map fun b => Tree.sizeOfPresent b.2.body).sum :=
    List.le_sum_of_mem (List.mem_map_of_mem hb)
  exact Nat.le_trans hframe (List.le_sum_of_mem (List.mem_map_of_mem hf))

end Chain

namespace Eval

/-! ## Fuel enough for the checks -/

variable {α β : Type}

/-- With trees and functions of at most the size `B`, and fuel `n` besides what the trees at hand
need, a function does not run out of fuel as long as the checks last: each of them pays for one more
tree. The value it yields has the property `Q`, it leaves functions of at most the size `B`, and no
more checks than it found. -/
def Finishes (B n : Nat) (Q : α → Prop) (x : Eval α) : Prop :=
  ∀ (m : Machine) (k : Nat), m.checks = some k → k * (B + 1) ≤ n → m.chain.Within B →
    match x m with
    | .ok a m' => Q a ∧ m'.chain.Within B ∧ ∃ k' ≤ k, m'.checks = some k'
    | .error h _ => h ≠ .outOfFuel

/-- Functions of which only the end matters, not the value. -/
abbrev Ends (B n : Nat) (x : Eval α) : Prop := Finishes B n (fun _ => True) x

/-- A tree, if there is one, has at most the size `B`, and so much fuel is more than it needs by
`n`. -/
def Spares (B n fuel : Nat) (t : Option Tree) : Prop :=
  ∀ u, t = some u → u.size ≤ B ∧ n + u.size ≤ fuel

namespace Spares

variable {n fuel : Nat} {t u : Tree}

/-- Without fuel there is not enough for any tree. -/
theorem not_zero : ¬ Spares B n 0 (some t) := by
  intro h
  have hpos := t.size_pos
  have hroom := (h t rfl).2
  omega

/-- What is inside a tree needs less than the tree. -/
theorem child (h : Spares B n (fuel + 1) (some t)) (hu : u ∈ t.children) :
    Spares B n fuel (some u) := by
  have hlt := Tree.size_lt_of_mem_children hu
  have hroom := h t rfl
  rintro _ ⟨⟩
  omega

/-- What a check pays for need not be spent. -/
theorem paid {k : Nat} {t : Option Tree} (h : Spares B (k + (B + 1)) fuel t) : Spares B k fuel t := by
  intro u hu
  have hroom := h u hu
  omega

/-- A check pays for any body of at most the size `B`. -/
theorem body {k : Nat} {g : Function} (h : Spares B (k + (B + 1)) (fuel + 1) (some t))
    (hg : g.Within B) : Spares B k fuel g.body := by
  intro u hu
  have hroom := (h t rfl).2
  have hB : u.size ≤ B := by simpa [Function.Within, hu, Tree.sizeOfPresent] using hg
  exact ⟨hB, by omega⟩

/-- A loop can take more turns than there is fuel to spare. -/
theorem turns {c b : Tree} (h : Spares B n (fuel + 1) (some (.loop c b))) : n < fuel := by
  have hroom := (h _ rfl).2
  simp only [Tree.size] at hroom
  have hpos := c.size_pos
  omega

/-- A function that is defined is no greater than the tree that defines it. -/
theorem defined {f : Text} {ps : List Text} {b : Tree}
    (h : Spares B n fuel (some (.define f ps b))) : Function.Within B ⟨f, ps, some b⟩ := by
  have hsize := (h _ rfl).1
  simp only [Tree.size] at hsize
  show b.size ≤ B
  omega

end Spares

namespace Finishes

variable {n : Nat} {P : α → Prop} {Q : β → Prop}

/-- What ends with so much to spare ends with less to spare than that. -/
theorem mono {x : Eval α} (h : Finishes B n P x) {l : Nat} (hl : l ≤ n) : Finishes B l P x :=
  fun m k hk hn hm => h m k hk (Nat.le_trans hn hl) hm

/-- The first of two runs takes no more checks than there are, so enough is left for the second
one. -/
theorem bind {x : Eval α} {f : α → Eval β} (hx : Finishes B n P x)
    (hf : ∀ a, P a → Finishes B n Q (f a)) : Finishes B n Q (x >>= f) := by
  intro m k hk hn hm
  have h := hx m k hk hn hm
  cases hr : x m with
  | error e m' =>
    rw [hr] at h
    rw [bind_error hr]
    exact h
  | ok a m' =>
    rw [hr] at h
    obtain ⟨ha, hm', k', hle, hk'⟩ := h
    rw [bind_ok hr]
    have hn' : k' * (B + 1) ≤ n := Nat.le_trans (Nat.mul_le_mul_right _ hle) hn
    have h' := hf a ha m' k' hk' hn' hm'
    cases hr' : f a m' with
    | error e m'' =>
      rw [hr'] at h'
      exact h'
    | ok b m'' =>
      rw [hr'] at h'
      obtain ⟨hb, hm'', k'', hle', hk''⟩ := h'
      exact ⟨hb, hm'', k'', Nat.le_trans hle' hle, hk''⟩

theorem pure {a : α} (ha : P a) : Finishes B n P (Pure.pure a) :=
  fun _ k hk _ hm => ⟨ha, hm, k, Nat.le_refl k, hk⟩

theorem fail (e : EvalError) : Finishes B n P (Eval.fail e) := fun _ _ _ _ _ => Halt.noConfusion

/-- A check that is passed pays for one more tree of the greatest size, and for one more turn. -/
theorem check_bind {f : Unit → Eval β} (hf : B + 1 ≤ n → Finishes B (n - (B + 1)) Q (f ())) :
    Finishes B n Q (check >>= f) := by
  intro m k hk hn hm
  cases k with
  | zero =>
    have hr : check m = .error (.error .canceled) m := by simp [check, hk]
    rw [bind_error hr]
    exact Halt.noConfusion
  | succ k =>
    have hr : check m = .ok () { m with checks := some k } := by simp [check, hk]
    rw [bind_ok hr]
    rw [Nat.succ_mul] at hn
    have h := hf (by omega) { m with checks := some k } k rfl (by omega) hm
    cases hr' : f () { m with checks := some k } with
    | error e m' =>
      rw [hr'] at h
      exact h
    | ok b m' =>
      rw [hr'] at h
      obtain ⟨hb, hm', k', hle, hk'⟩ := h
      exact ⟨hb, hm', k', Nat.le_succ_of_le hle, hk'⟩

theorem step (o : Options) : Ends B n (step o) := by
  intro m k hk _ hm
  unfold Eval.step
  cases o.limit with
  | none => exact ⟨trivial, hm, k, Nat.le_refl k, hk⟩
  | some l =>
    by_cases h : l < m.steps + 1
    · simp [h]
    · simp only [if_neg h]
      exact ⟨trivial, hm, k, Nat.le_refl k, hk⟩

theorem lookup (x : Text) : Ends B n (lookup x) := by
  intro m k hk _ hm
  unfold Eval.lookup
  cases m.chain.lookup? x with
  | none => exact Halt.noConfusion
  | some v => exact ⟨trivial, hm, k, Nat.le_refl k, hk⟩

/-- A function that is found is one of the scope, so it has at most the size `B`. -/
theorem lookupFunc (x : Text) : Finishes B n (Function.Within B) (lookupFunc x) := by
  intro m k hk _ hm
  unfold Eval.lookupFunc
  cases hg : m.chain.lookupFunc? x with
  | none => exact Halt.noConfusion
  | some g => exact ⟨hm.lookupFunc? hg, hm, k, Nat.le_refl k, hk⟩

theorem declare (x : Text) (v : Int64) : Ends B n (declare x v) := by
  intro m k hk _ hm
  unfold Eval.declare
  cases hc : m.chain.declare? x v with
  | none => exact Halt.noConfusion
  | some c => exact ⟨trivial, hm.declare? hc, k, Nat.le_refl k, hk⟩

theorem assign (x : Text) (v : Int64) : Ends B n (assign x v) := by
  intro m k hk _ hm
  unfold Eval.assign
  cases hc : m.chain.assign? x v with
  | none => exact Halt.noConfusion
  | some c => exact ⟨trivial, hm.assign? hc, k, Nat.le_refl k, hk⟩

/-- A small function keeps the functions of a scope small. -/
theorem define (x : Text) {g : Function} (hg : g.Within B) : Ends B n (define x g) :=
  fun _ k hk _ hm => ⟨trivial, hm.defineFunc hg, k, Nat.le_refl k, hk⟩

theorem print (v : Int64) : Ends B n (print v) := by
  intro m k hk _ hm
  unfold Eval.print
  cases (m.sinks.get m.chain.sink).print? v with
  | none => exact Halt.noConfusion
  | some s => exact ⟨trivial, hm, k, Nat.le_refl k, hk⟩

/-- Entering and leaving take no check, and keep the functions of a scope small. -/
theorem around {before after : Machine → Machine} {x : Eval α} (hx : Finishes B n P x)
    (hb : ∀ m, m.chain.Within B → (before m).chain.Within B ∧ (before m).checks = m.checks)
    (ha : ∀ m, m.chain.Within B → (after m).chain.Within B ∧ (after m).checks = m.checks) :
    Finishes B n P (Eval.around before after x) := by
  intro m k hk hn hm
  obtain ⟨hbefore, hchecks⟩ := hb m hm
  have h := hx (before m) k (hchecks.trans hk) hn hbefore
  unfold Eval.around
  cases hr : x (before m) with
  | error e m' =>
    rw [hr] at h
    exact h
  | ok a m' =>
    rw [hr] at h
    obtain ⟨hp, hm', k', hle, hk'⟩ := h
    obtain ⟨hafter, hchecks'⟩ := ha m' hm'
    exact ⟨hp, hafter, k', hle, hchecks'.trans hk'⟩

/-- Every turn of a loop takes a check, so there are no more turns than checks. -/
theorem repeated {test body : Eval Int64} {turns : Nat} (hn : n < turns) (ht : Ends B n test)
    (hb : Ends B n body) (last : Int64) : Ends B n (repeated test body turns last) := by
  induction turns generalizing n last with
  | zero => omega
  | succ turns ih =>
    refine check_bind fun hpaid => ?_
    have hless : n - (B + 1) ≤ n := Nat.sub_le _ _
    refine bind (ht.mono hless) fun v _ => ?_
    by_cases hv : v = 1
    · simp only [if_pos hv]
      exact bind (hb.mono hless) fun w _ => ih (by omega) (ht.mono hless) (hb.mono hless) w
    · simp only [if_neg hv]
      exact pure trivial

/-- The rules for runs with checks, with the fuel to spare as index: there is enough for the tree at
hand, and a check at a call pays for the body of the function, whatever tree that is by now. -/
def logic (B : Nat) (o : Options) : Logic Notes.blank o where
  Index := Nat
  Holds n x _ := Ends B n x
  MayCall := Function.Within B
  MayEnter := Frame.Within B
  MayRun := Spares B
  Counted := Eq
  Asked n k := n = k + (B + 1)
  pure _ := pure trivial
  bind hx hf := bind hx fun a _ => hf a
  duplicate _ _ := fail _
  print v := print v
  child hF m k hk hn hm := hF m.chain.child m.chain.eachFunc_child m k hk hn hm
  bound hf hd := hf.declare? hd
  inFrame hf hx := around hx (fun _ hm => ⟨hm.cons hf, rfl⟩) fun _ hm => ⟨hm.tail, rfl⟩
  inBody hx := around hx (fun _ hm => ⟨hm, rfl⟩) fun _ hm => ⟨hm, rfl⟩
  outOfFuel ht := absurd ht Spares.not_zero
  missing _ := fail _
  step _ hx := bind (step o) fun _ _ => hx _ rfl
  check hx := check_bind fun hpaid => hx _ (Nat.sub_add_cancel hpaid).symm
  loop ht hj hc hb := repeated (hj ▸ ht.turns) hc hb 0
  lookup _ _ := lookup _
  lookupFunc _ _ hF := bind (lookupFunc _) hF
  declare v _ _ := declare _ v
  assign v _ _ := assign _ v
  define ht _ := define _ ht.defined
  children ht hj hu := by
    rw [ite_self]
    exact hj ▸ ht.child hu
  args ht hk := Spares.paid (hk ▸ ht)
  body ht hj hk hg := Spares.body (hk ▸ hj ▸ ht) hg

end Finishes

/-- A run of trees that passes `k` checks does not run out of fuel if it has that much. -/
theorem all_finishes (o : Options) (ts : List (Option Tree)) {m : Machine} {k fuel : Nat}
    (hk : m.checks = some k) (hfuel : haltingFuel k ts m ≤ fuel) (m' : Machine) :
    all o fuel ts m ≠ .error .outOfFuel m' := by
  intro h
  have hcode : m.chain.Within (codeSize ts m) :=
    fun f hf x g hg => Nat.le_trans (m.chain.within_codeSize f hf x g hg) (Nat.le_add_left _ _)
  have hts : ∀ t ∈ ts, Tree.sizeOfPresent t ≤ codeSize ts m := fun t ht =>
    Nat.le_trans (List.le_sum_of_mem (List.mem_map_of_mem ht)) (Nat.le_add_right _ _)
  unfold haltingFuel at hfuel
  generalize codeSize ts m = B at hcode hts hfuel
  rw [Nat.succ_mul] at hfuel
  have hall : Ends B (k * (B + 1)) (all o fuel ts) := by
    refine (Finishes.logic B o).all fuel _ fun t ht u hu => ?_
    have huB : u.size ≤ B := by simpa [hu, Tree.sizeOfPresent] using hts t ht
    exact ⟨huB, by omega⟩
  have hend := hall m k hk (Nat.le_refl _) hcode
  rw [h] at hend
  exact hend rfl

end Eval

/-! ## Halting -/

/-- What halts a run, if it has no value. -/
def haltOf : EStateM.Result Halt Machine Int64 → Option Halt
  | .ok _ _ => none
  | .error h _ => some h

/-- A run has come to its end: it has a value, or it is halted by an error. -/
def Halted (r : EStateM.Result Halt Machine Int64) : Prop :=
  haltOf r = none ∨ ∃ e, haltOf r = some (.error e)

/-- A run that does not run out of fuel has come to its end. -/
theorem halted_of_ne {r : EStateM.Result Halt Machine Int64}
    (h : ∀ m', r ≠ .error .outOfFuel m') : Halted r := by
  rcases r with ⟨v, m'⟩ | ⟨e | _, m'⟩
  · exact Or.inl rfl
  · exact Or.inr ⟨e, rfl⟩
  · exact absurd rfl (h m')

/-- Every bounded run of trees halts, whatever the trees, the scope and the functions in it. Under a
limit on the visited trees the run halts within the fuel it is given. Without a limit, a run that
may pass finitely many checks comes to one end with all fuel from some amount on, and so also with
the fuel it is given, if that is enough. -/
theorem evalAll_halts (o : Options) (ts : List (Option Tree)) (m : Machine) :
    (∀ n, Halted (evalAll (o.limited n) ts m)) ∧
      ∀ k, m.checks = some k → ∃ r, Halted r ∧
        (∀ fuel, Eval.haltingFuel k ts m ≤ fuel → Eval.all o.unlimited fuel ts m.restarted = r) ∧
        (Eval.haltingFuel k ts m ≤ o.unlimited.fuel → evalAll o.unlimited ts m = r) := by
  constructor
  · intro n
    exact halted_of_ne (Eval.all_lasts (o := o.limited n) rfl (Nat.lt_succ_self n) ts m)
  · intro k hk
    have hends : ∀ m', Eval.all o.unlimited (Eval.haltingFuel k ts m) ts m.restarted ≠
        .error .outOfFuel m' :=
      Eval.all_finishes o.unlimited ts (m := m.restarted) hk (Nat.le_refl _)
    have hstable : ∀ fuel, Eval.haltingFuel k ts m ≤ fuel →
        Eval.all o.unlimited fuel ts m.restarted =
          Eval.all o.unlimited (Eval.haltingFuel k ts m) ts m.restarted :=
      fun fuel hfuel => Eval.all_more_fuel o.unlimited hfuel ts m.restarted hends
    exact ⟨_, halted_of_ne hends, hstable, hstable _⟩

/-- A machine with a function that defines another one, which calls the first one, and calls it. -/
def pingPong : Machine where
  chain := [{ funcs := [(utf8 "ping", ⟨utf8 "ping", [],
    some (.seq [.define (utf8 "pong") [] (.call (utf8 "ping") []), .call (utf8 "pong") []])⟩)] }]
  checks := some 3

/-- A call of that function. -/
def pingCall : List (Option Tree) := [some (.call (utf8 "ping") [])]

/-- Two functions that call each other without end are halted by a limit, and by the fourth check if
three checks let them go on. -/
theorem evalAll_halts_pingPong :
    Halted (evalAll (Options.limited {} 5) pingCall pingPong) ∧
      pingPong.checks = some 3 ∧ Halted (evalAll (Options.unlimited {}) pingCall pingPong) ∧
      haltOf (evalAll (Options.unlimited {}) pingCall pingPong) = some (.error .canceled) := by
  have hhalts := evalAll_halts {} pingCall pingPong
  obtain ⟨r, hr, hall, heval⟩ := hhalts.2 3 rfl
  have hend : evalAll (Options.unlimited {}) pingCall pingPong = r := heval (by decide +kernel)
  have hcanceled : haltOf r = some (.error .canceled) := by
    rw [← hall 24 (by decide +kernel)]
    decide +kernel
  rw [hend]
  exact ⟨hhalts.1 5, rfl, hr, hcanceled⟩

end TreeLang
