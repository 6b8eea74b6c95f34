import Mathlib
import TreeLang.Scope.Chain

/-!
# What names are used for

A tree uses names in six roles: it declares, assigns and reads variables, has parameters, and
defines and calls functions. `Tree.uses` lists the names in a tree with their roles, those in the
bodies of the functions that it defines included, and `Function.uses` does so for a function. A rule
for names in their roles that a tree obeys is obeyed by the trees inside it (`Tree.Obeys`).
-/

set_option autoImplicit false

namespace TreeLang

/-- What a name is used for. -/
inductive Role where
  /-- A variable is declared. -/
  | declared
  /-- A variable is assigned. -/
  | assigned
  /-- A variable is read. -/
  | read
  /-- A variable is a parameter of a function. -/
  | param
  /-- A function is defined. -/
  | defined
  /-- A function is called. -/
  | called
  deriving DecidableEq, Repr

/-- Whether the name is that of a variable. -/
def Role.isVar : Role → Bool
  | .declared | .assigned | .read | .param => true
  | .defined | .called => false

namespace Tree

mutual

/-- The names in a tree with their roles. -/
def uses : Tree → List (Role × Text)
  | .none | .literal _ => []
  | .binary _ a b => a.uses ++ b.uses
  | .seq ts => usesAll ts
  | .cond c a b => c.uses ++ a.uses ++ b.uses
  | .loop c b => c.uses ++ b.uses
  | .declare x e => (.declared, x) :: e.uses
  | .assign x e => (.assigned, x) :: e.uses
  | .var x => [(.read, x)]
  | .print e => e.uses
  | .define f ps b => (.defined, f) :: (ps.map (Prod.mk Role.param) ++ b.uses)
  | .call f args => (.called, f) :: usesAll args

/-- The names in trees with their roles. -/
def usesAll : List Tree → List (Role × Text)
  | [] => []
  | t :: ts => t.uses ++ usesAll ts

end

theorem usesAll_eq_flatMap (ts : List Tree) : usesAll ts = ts.flatMap uses := by
  induction ts with
  | nil => rfl
  | cons t ts ih => rw [usesAll, ih, List.flatMap_cons]

/-- The names in a tree that may be missing, with their roles. -/
def usesOf? (t : Option Tree) : List (Role × Text) := (t.map uses).getD []

end Tree

/-- The names of a function with their roles: its own name, its parameters, and those in its
body. -/
def Function.uses (f : Function) : List (Role × Text) :=
  (.defined, f.name) :: (f.params.map (Prod.mk Role.param) ++ Tree.usesOf? f.body)

/-! ## Rules for names -/

variable {P : Role → Text → Prop}

/-- The names in a tree are as `P` says of names in their roles. -/
def Tree.Obeys (P : Role → Text → Prop) (t : Tree) : Prop := ∀ n ∈ t.uses, P n.1 n.2

/-- The names of a function are as `P` says of names in their roles. -/
def Function.Obeys (P : Role → Text → Prop) (f : Function) : Prop := ∀ n ∈ f.uses, P n.1 n.2

/-- Trees whose uses all are as they should be obey the rule. -/
theorem Tree.obeys_usesAll {ts : List Tree} (h : ∀ n ∈ usesAll ts, P n.1 n.2) :
    ∀ t ∈ ts, t.Obeys P := by
  intro t ht n hn
  apply h
  rw [usesAll_eq_flatMap, List.mem_flatMap]
  exact ⟨t, ht, hn⟩

/-- The body of a function and its parameters obey what the function does. -/
theorem Function.obeys_iff (f : Function) :
    f.Obeys P ↔ P .defined f.name ∧ (∀ x ∈ f.params, P .param x) ∧ ∀ b ∈ f.body, b.Obeys P := by
  have hparams : (∀ n ∈ f.params.map (Prod.mk Role.param), P n.1 n.2) ↔ ∀ x ∈ f.params, P .param x :=
    List.forall_mem_map
  rw [Function.Obeys, Function.uses, List.forall_mem_cons, List.forall_mem_append, hparams]
  cases hb : f.body with
  | none => simp [Tree.usesOf?]
  | some b => simp [Tree.usesOf?, Tree.Obeys]

end TreeLang
