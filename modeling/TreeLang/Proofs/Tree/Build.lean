import TreeLang.Proofs.Tree.Size
import TreeLang.Tree.Build

/-!
# What the constructors of trees give

All constructors work alike: they look at their operands in order, refuse at the first one that is
missing, and otherwise give the tree of the operands (`Construction.build_eq`). So they give nothing
but trees with all their parts, and a fault names the first missing operand of a form.

Conversely constructors give every tree, from its children (`exists_construction`). So the trees
that are put together by constructors are exactly the trees of the type (`Built.all`): no operand is
missing inside a tree, and no operator is unknown.
-/

set_option autoImplicit false

namespace TreeLang.Tree

/-! ## Operands -/

/-- Operands are taken if all of them are there. -/
theorem presentFrom_eq_ok_iff {form : Text} {index : Nat} {os : List (Option Tree)} {ts : List Tree} :
    presentFrom form index os = .ok ts ↔ os = ts.map some := by
  induction os generalizing index ts with
  | nil => cases ts <;> simp [presentFrom]
  | cons o os ih =>
    cases o with
    | none => cases ts <;> simp [presentFrom]
    | some t =>
      rw [presentFrom]
      cases hrest : presentFrom form (index + 1) os with
      | error f =>
        have hnot : ∀ us : List Tree, os ≠ us.map some := by
          intro us hus
          cases hrest.symm.trans (ih.2 hus)
        cases ts <;> simp [Except.map, hnot]
      | ok us =>
        obtain rfl := ih.1 hrest
        cases ts with
        | nil => simp [Except.map]
        | cons u ts =>
          rw [List.map_cons, List.cons.injEq, Option.some.injEq,
            (Option.some_injective Tree).list_map.eq_iff]
          simp [Except.map]

/-- A fault of operands is at the first one that is missing. -/
theorem presentFrom_eq_error_iff {form : Text} {os : List (Option Tree)} {f : BuildFault} (index : Nat) :
    presentFrom form index os = .error f ↔
      ∃ (before : List Tree) (after : List (Option Tree)),
        os = before.map some ++ Option.none :: after ∧
          f = .missingOperand (index + before.length) form := by
  induction os generalizing index with
  | nil => simp [presentFrom]
  | cons o os ih =>
    cases o with
    | none =>
      constructor
      · intro h
        cases h
        exact ⟨[], os, rfl, rfl⟩
      · rintro ⟨before, after, hos, rfl⟩
        cases before with
        | nil => rfl
        | cons => simp at hos
    | some t =>
      rw [presentFrom]
      constructor
      · intro h
        cases hrest : presentFrom form (index + 1) os with
        | ok us =>
          rw [hrest] at h
          cases h
        | error g =>
          rw [hrest] at h
          cases h
          obtain ⟨before, after, rfl, rfl⟩ := (ih (index + 1)).1 hrest
          refine ⟨t :: before, after, rfl, ?_⟩
          rw [List.length_cons, Nat.add_right_comm, Nat.add_assoc]
      · rintro ⟨before, after, hos, rfl⟩
        cases before with
        | nil => simp at hos
        | cons u before =>
          rw [List.map_cons, List.cons_append, List.cons.injEq] at hos
          have hindex : index + (u :: before).length = index + 1 + before.length := by
            rw [List.length_cons, Nat.add_right_comm, Nat.add_assoc]
          rw [(ih (index + 1)).2 ⟨before, after, hos.2, by rw [hindex]⟩]
          rfl

/-! ## Constructors -/

/-- A constructor with its operands, which may be missing. -/
inductive Construction where
  | binary (op : Op) (left right : Option Tree)
  | seq (items : List (Option Tree))
  | cond (test yes no : Option Tree)
  | loop (test body : Option Tree)
  | declare (name : Text) (value : Option Tree)
  | assign (name : Text) (value : Option Tree)
  | print (value : Option Tree)
  | define (name : Text) (params : List Text) (body : Option Tree)
  | call (name : Text) (args : List (Option Tree))

namespace Construction

/-- What a constructor gives. -/
def build : Construction → Except BuildFault Tree
  | .binary op left right => binary? op left right
  | .seq items => seq? items
  | .cond test yes no => cond? test yes no
  | .loop test body => loop? test body
  | .declare name value => declare? name value
  | .assign name value => assign? name value
  | .print value => print? value
  | .define name params body => define? name params body
  | .call name args => call? name args

/-- The operands of a constructor. -/
def operands : Construction → List (Option Tree)
  | .binary _ left right => [left, right]
  | .seq items => items
  | .cond test yes no => [test, yes, no]
  | .loop test body => [test, body]
  | .declare _ value | .assign _ value | .print value => [value]
  | .define _ _ body => [body]
  | .call _ args => args

/-- The form that a fault of a constructor names. -/
def form : Construction → Text
  | .binary op _ _ => op.name
  | .seq _ => Kind.seq.name
  | .cond .. => Kind.cond.name
  | .loop .. => Kind.loop.name
  | .declare .. => Kind.declare.name
  | .assign .. => Kind.assign.name
  | .print _ => Kind.print.name
  | .define .. => Kind.define.name
  | .call .. => Kind.call.name

/-- The tree of a constructor with the given operands in the places of its own. -/
def make : Construction → List Tree → Tree
  | .binary op _ _, [a, b] => .binary op a b
  | .seq _, ts => .seq ts
  | .cond .., [c, a, b] => .cond c a b
  | .loop .., [c, b] => .loop c b
  | .declare x _, [e] => .declare x e
  | .assign x _, [e] => .assign x e
  | .print _, [e] => .print e
  | .define f params _, [b] => .define f params b
  | .call f _, ts => .call f ts
  | _, _ => .none

/-- Constructors work alike. -/
theorem build_eq (c : Construction) : c.build = (present c.form c.operands).map c.make := by
  cases c with
  | binary op left right => cases left <;> cases right <;> rfl
  | cond test yes no => cases test <;> cases yes <;> cases no <;> rfl
  | loop test body => cases test <;> cases body <;> rfl
  | declare x e | assign x e => cases e <;> rfl
  | print e => cases e <;> rfl
  | define f params b => cases b <;> rfl
  | seq items | call f items =>
    show Except.map _ _ = Except.map _ _
    congr

/-- A constructor gives the tree of its operands, and only where all of them are there. -/
theorem build_eq_ok_iff {c : Construction} {t : Tree} :
    c.build = .ok t ↔ ∃ ts, c.operands = ts.map some ∧ t = c.make ts := by
  rw [build_eq]
  constructor
  · intro h
    cases hpresent : present c.form c.operands with
    | error f =>
      rw [hpresent] at h
      cases h
    | ok ts =>
      rw [hpresent] at h
      cases h
      exact ⟨ts, presentFrom_eq_ok_iff.1 hpresent, rfl⟩
  · rintro ⟨ts, hts, rfl⟩
    rw [present, presentFrom_eq_ok_iff.2 hts]
    rfl

/-- A constructor that gives no tree names its form and the first operand that is missing. -/
theorem build_eq_error_iff {c : Construction} {f : BuildFault} :
    c.build = .error f ↔
      ∃ (before : List Tree) (after : List (Option Tree)),
        c.operands = before.map some ++ Option.none :: after ∧
          f = .missingOperand before.length c.form := by
  have hpresent : present c.form c.operands = .error f ↔ _ := presentFrom_eq_error_iff 0
  simp only [Nat.zero_add] at hpresent
  rw [← hpresent, build_eq]
  cases present c.form c.operands <;> simp [Except.map]

end Construction

/-- An operation by the number of its operator is that of the operator, if the number has one. -/
theorem operation?_eq_ok_iff {number : Int} {left right : Option Tree} {t : Tree} :
    operation? number left right = .ok t ↔
      ∃ op, Op.ofNumber? number = some op ∧ (Construction.binary op left right).build = .ok t := by
  unfold operation?
  cases Op.ofNumber? number with
  | none => simp
  | some op => simp [Construction.build]

/-- Whether a tree takes no operands. -/
def isLeaf : Tree → Bool
  | .none | .literal _ | .var _ => true
  | _ => false

/-- A tree that takes operands is what a constructor gives for its children, and the form that the
constructor names in its faults is the key of the tree. -/
theorem exists_construction {t : Tree} (h : t.isLeaf = false) :
    ∃ c : Construction, c.operands = t.children.map some ∧ c.form = t.key ∧ c.build = .ok t := by
  cases t with
  | none | literal | var => cases h
  | binary op a b => exact ⟨.binary op (some a) (some b), rfl, rfl, rfl⟩
  | cond c a b => exact ⟨.cond (some c) (some a) (some b), rfl, rfl, rfl⟩
  | loop c b => exact ⟨.loop (some c) (some b), rfl, rfl, rfl⟩
  | declare x e => exact ⟨.declare x (some e), rfl, rfl, rfl⟩
  | assign x e => exact ⟨.assign x (some e), rfl, rfl, rfl⟩
  | print e => exact ⟨.print (some e), rfl, rfl, rfl⟩
  | define f params b => exact ⟨.define f params (some b), rfl, rfl, rfl⟩
  | seq ts => exact ⟨.seq (ts.map some), rfl, rfl, Construction.build_eq_ok_iff.2 ⟨ts, rfl, rfl⟩⟩
  | call f ts => exact ⟨.call f (ts.map some), rfl, rfl, Construction.build_eq_ok_iff.2 ⟨ts, rfl, rfl⟩⟩

/-- Trees that are put together by constructors. -/
inductive Built : Tree → Prop
  | leaf {t : Tree} (h : t.isLeaf = true) : Built t
  | build {t : Tree} {c : Construction} (hc : ∀ u, some u ∈ c.operands → Built u)
      (h : c.build = .ok t) : Built t

/-- All trees are put together by constructors. -/
theorem Built.all (t : Tree) : Built t := by
  induction t using induct_children with
  | h t ih =>
    cases hleaf : t.isLeaf with
    | true => exact .leaf hleaf
    | false =>
      obtain ⟨c, hoperands, -, hbuild⟩ := exists_construction hleaf
      refine .build (fun u hu => ih u ?_) hbuild
      rw [hoperands] at hu
      simpa using hu

end TreeLang.Tree
