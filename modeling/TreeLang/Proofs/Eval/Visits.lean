import TreeLang.Proofs.Eval.CutShort

/-!
# The trees that a run visits

A run comes to one tree after the other: to the tree it is given, to the trees inside it, and to the
bodies of the functions that it calls. `Eval.visitsAll` lists these visits in order, each with the
machine as the run finds it there, so that the current frame of that machine is the frame in use.

No visit is left out, and none is made up: a run under a limit counts every tree that it visits, and
the list is as long as what it counts (`Eval.length_visitsAll`).
-/

set_option autoImplicit false

namespace TreeLang

/-- A visit of a run: a tree, and the machine as the run comes to the tree. -/
structure Visit where
  tree : Tree
  machine : Machine

/-- Every visit is noted. -/
def Notes.visits : Notes Visit := ⟨fun t m => [⟨t, m⟩], fun _ _ inside => inside⟩

namespace Eval

variable {α β : Type}

/-- The visits of a run of trees one after the other. -/
def visitsAll (o : Options) (fuel : Nat) (ts : List (Option Tree)) (m : Machine) : List Visit :=
  Notes.visits.all o fuel ts m

/-! ## Every visit is counted -/

/-- The machine counts as many trees in a run as are seen in it. -/
def Counts (x : Eval α) (seen : Machine → List Visit) : Prop :=
  ∀ m, (final (x m)).steps = m.steps + (seen m).length

namespace Counts

variable {seen : Machine → List Visit}

/-- What looks at no count counts no tree, and visits none. -/
theorem countless {x : Eval α} (hx : Countless x) : Counts x fun _ => [] := by
  intro m
  have h := hx m 0 none
  cases hr : x m with
  | ok v m' =>
    rw [hr] at h
    exact h.1
  | error e m' =>
    rw [hr] at h
    exact h.2.1

/-- What two runs one after the other count adds up. -/
theorem bind {x : Eval α} {f : α → Eval β} {next : α → Machine → List Visit} (hx : Counts x seen)
    (hf : ∀ a, Counts (f a) (next a)) :
    Counts (x >>= f) fun m => seen m ++ thereafter (x m) next := by
  intro m
  have h := hx m
  cases hr : x m with
  | error e m' =>
    rw [hr] at h
    simp only [bind_error hr, hr, thereafter_error, List.append_nil]
    exact h
  | ok a m' =>
    rw [hr] at h
    simp only [bind_ok hr, hr, thereafter_ok, List.length_append]
    rw [hf a m', ← Nat.add_assoc]
    exact congrArg (· + (next a m').length) h

theorem check : Counts check fun _ => [] := by
  intro m
  unfold Eval.check
  split <;> rfl

/-- Under a limit the visited tree is counted, also when it is one too many. -/
theorem step {o : Options} {n : Nat} (ho : o.limit = some n) (t : Tree) :
    Counts (step o) fun m => [⟨t, m⟩] := by
  intro m
  unfold Eval.step
  rw [ho]
  dsimp only
  split <;> rfl

/-- Entering and leaving counts nothing. -/
theorem around {before after : Machine → Machine} {x : Eval α} (hx : Counts x seen)
    (hb : ∀ m, (before m).steps = m.steps) (ha : ∀ m, (after m).steps = m.steps) :
    Counts (Eval.around before after x) fun m => seen (before m) := by
  intro m
  rw [around_final, ha, hx (before m), hb]

/-- Under a limit, every part of a run counts what it visits. -/
def plain {o : Options} {n : Nat} (ho : o.limit = some n) : Plain Notes.visits o where
  Holds _ x seen := Counts x seen
  pure a := countless (countless_pure a)
  bind := bind
  duplicate _ _ := countless (countless_fail _)
  print v := countless (countless_print v)
  child hF m := hF m.chain.child trivial m
  inFrame _ hx := around hx (fun _ => rfl) fun _ => rfl
  inBody hx := around hx (fun _ => rfl) fun _ => rfl
  outOfFuel _ := rfl
  missing _ := countless (countless_fail _)
  step _ := step ho _
  check := check
  lookup _ := countless (countless_lookup _)
  lookupFunc _ hF := bind (countless (countless_lookupFunc _)) fun g => hF g trivial
  declare v _ := countless (countless_declare _ v)
  assign v _ := countless (countless_assign _ v)
  define _ := countless (countless_define _ _)

end Counts

/-- A run of a tree counts as many trees as it visits. -/
theorem length_visits {o : Options} {n : Nat} (ho : o.limit = some n) (fuel : Nat) (t : Tree)
    (m : Machine) :
    (final (tree o fuel t m)).steps = m.steps + (Notes.visits.tree o fuel t m).length :=
  (Counts.plain ho).logic.tree fuel () t trivial m

/-- The list of visits is complete: it has as many entries as the machine counts under a limit. -/
theorem length_visitsAll {o : Options} {n : Nat} (ho : o.limit = some n) (fuel : Nat)
    (ts : List (Option Tree)) (m : Machine) :
    (final (all o fuel ts m)).steps = m.steps + (visitsAll o fuel ts m).length :=
  (Counts.plain ho).logic.all fuel () (fun _ _ => trivial) m

/-- A run that has a value counts a tree, if there is a limit. -/
theorem steps_lt_of_tree {o : Options} {n : Nat} (ho : o.limit = some n) {fuel : Nat} {t : Tree}
    {m m' : Machine} {v : Int64} (h : tree o fuel t m = .ok v m') : m.steps < m'.steps := by
  cases fuel with
  | zero => cases h
  | succ fuel =>
    have hcount := length_visits ho (fuel + 1) t m
    rw [h, Notes.tree, List.length_append] at hcount
    have hvisit : (Notes.visits.visit t m).length = 1 := rfl
    have hsteps : m'.steps = _ := hcount
    omega

end Eval

end TreeLang
