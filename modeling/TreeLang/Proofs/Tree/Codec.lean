import TreeLang.Proofs.Text.Decimal
import TreeLang.Tree.Decode
import TreeLang.Tree.Encode

/-!
# Decoding what was encoded

The node of a tree denotes that tree again, provided that no name in the tree is empty; a tree with
an empty name is encoded as well, but its node denotes nothing (`Tree.ofDocument_toNode`).

`Decode.Gives x names a` says what a decoder does with nodes that hold the given names: it gives
`a`, or it stops at the first empty name. Both cases are carried through the forms at once.
-/

set_option autoImplicit false

namespace TreeLang

open Yaml (Node Anchors Place)

namespace Tree

mutual

/-- The names of variables, parameters and functions in a tree, as they occur. -/
def names : Tree → List Text
  | .none | .literal _ => []
  | .var x => [x]
  | .binary _ a b => a.names ++ b.names
  | .seq ts => namesAll ts
  | .cond c a b => c.names ++ (a.names ++ b.names)
  | .loop c b => c.names ++ b.names
  | .declare x e | .assign x e => x :: e.names
  | .print e => e.names
  | .define f ps b => f :: (ps ++ b.names)
  | .call f args => f :: namesAll args

/-- The names in trees. -/
def namesAll : List Tree → List Text
  | [] => []
  | t :: ts => t.names ++ namesAll ts

end

end Tree

/-! ## The forms of keys -/

namespace Form

/-- Every form is in the list of all forms. -/
theorem mem_all (f : Form) : f ∈ all := by
  cases f with
  | operator op => cases op <;> decide
  | _ => decide

/-- Different forms have different names. -/
theorem name_injective : ∀ f ∈ all, ∀ g ∈ all, f.name = g.name → f = g := by
  decide

/-- A form is found by its name. -/
theorem ofName?_name (f : Form) : ofName? f.name = some f := by
  unfold ofName?
  cases h : all.find? fun g => g.name = f.name with
  | none =>
    have hf := List.find?_eq_none.1 h f (mem_all f)
    simp at hf
  | some g =>
    have hname : g.name = f.name := by simpa using List.find?_some h
    rw [name_injective g (List.mem_of_find?_eq_some h) f (mem_all f) hname]

end Form

/-! ## Decoders of encoded nodes -/

namespace Decode

/-- The fault of an empty name in a node that stands nowhere. -/
def emptyName : Fault := ⟨{}, .notName []⟩

/-- Outside of aliases a decoder gives `a` and changes nothing, unless one of the names is empty. -/
def Gives {α : Type} (x : Decode α) (names : List Text) (a : α) : Prop :=
  ∀ s : Expansion, s.followed = [] → x s = if [] ∈ names then .error emptyName s else .ok a s

namespace Gives

variable {α β : Type} {a : α} {b : β} {ms ns : List Text}

theorem pure (a : α) : Gives (Pure.pure a) [] a := by
  intro s _
  rfl

/-- Parts one after the other read the names of both. -/
theorem bind {x : Decode α} {f : α → Decode β} (hx : Gives x ms a) (hf : Gives (f a) ns b) :
    Gives (x >>= f) (ms ++ ns) b := by
  intro s hs
  show EStateM.bind x f s = _
  unfold EStateM.bind
  rw [hx s hs]
  by_cases hm : [] ∈ ms
  · rw [if_pos hm, if_pos (List.mem_append_left ns hm)]
  · rw [if_neg hm]
    simp only [hf s hs, List.mem_append, hm, false_or]

/-- A last step that only wraps up the result. -/
theorem map {x : Decode α} (f : α → β) (hx : Gives x ms a) :
    Gives (x >>= fun a => Pure.pure (f a)) ms (f a) := by
  have h := hx.bind (f := fun a => Pure.pure (f a)) (pure (f a))
  rwa [List.append_nil] at h

theorem visit (p : Place) : Gives (Decode.visit p) [] () := by
  intro s hs
  unfold Decode.visit
  rw [hs]
  rfl

theorem visit_bind {x : Unit → Decode α} (p : Place) (hx : Gives (x ()) ns a) :
    Gives (Decode.visit p >>= x) ns a :=
  (visit p).bind hx

/-- The node of a name is decoded to it. -/
theorem name (x : Text) : Gives (Decode.name (Tree.nameNode x)) [x] x := by
  intro s _
  by_cases hx : x = []
  · subst hx
    rfl
  · have hmem : [] ∉ [x] := fun h => hx (List.mem_singleton.1 h).symm
    have hname : Decode.name (Tree.nameNode x) = Pure.pure x := if_pos ⟨rfl, hx⟩
    rw [if_neg hmem, hname]
    rfl

theorem names (xs : List Text) : Gives (Decode.names (xs.map Tree.nameNode)) xs xs := by
  induction xs with
  | nil => exact pure []
  | cons x xs ih => exact (name x).bind (ih.map (List.cons x))

/-- The node of parameters is decoded to them. -/
theorem params (xs : List Text) : Gives (Decode.params (Tree.paramsNode xs)) xs xs :=
  names xs

/-- The node of a number is decoded to the literal. -/
theorem literal (v : Int64) :
    Gives (Decode.literal {} Yaml.Tag.int (Text.ofInt64 v)) [] (Tree.literal v) := by
  unfold Decode.literal
  rw [if_pos rfl, Yaml.Scalar.toInt64_ofInt64]
  exact pure _

end Gives

/-! ## Forms -/

section Forms

variable {anchors : Anchors} {follow : Place → Nat → Decode Tree}

/-- The key of the node of a form is the name of the form again. -/
theorem node_formNode (small : Bool) (f : Form) (operand : Node) :
    node (Node.tag? anchors) follow (Tree.formNode small f.name operand) = (do
      visit {}
      match f with
      | .none => noOperand (operand.tag? anchors) operand
      | .var => return .var (← name operand)
      | .print => return .print (← node (Node.tag? anchors) follow operand)
      | f =>
        match operand with
        | .sequence q _ _ items => operands f q (suspended (Node.tag? anchors) follow items)
        | n => fail n.place (if f = .call then .noFunction else .notList f.name)) := by
  rw [Tree.formNode, Tree.nameNode, node, Form.ofName?_name]
  cases f <;> rfl

/-- The node of a form with a list of operands is decoded by its operands. -/
theorem Gives.node_listNode {small : Bool} {f : Form} {items : List Node} {ns : List Text} {t : Tree}
    (hnone : f ≠ .none) (hvar : f ≠ .var) (hprint : f ≠ .print)
    (h : Gives (operands f {} (suspended (Node.tag? anchors) follow items)) ns t) :
    Gives (node (Node.tag? anchors) follow (Tree.formNode small f.name (Tree.listNode items))) ns t := by
  rw [node_formNode]
  refine Gives.visit_bind _ ?_
  cases f with
  | none => exact absurd rfl hnone
  | var => exact absurd rfl hvar
  | print => exact absurd rfl hprint
  | _ => exact h

mutual

/-- The node of a tree denotes the tree. -/
theorem node_toNode : (t : Tree) → Gives (node (Node.tag? anchors) follow t.toNode) t.names t
  | .none => by
    show Gives (node (Node.tag? anchors) follow (Tree.formNode _ Form.none.name Tree.nullNode)) _ _
    rw [node_formNode]
    exact Gives.visit_bind _ (Gives.pure Tree.none)
  | .literal v => by
    rw [Tree.toNode, Tree.intNode, node]
    exact Gives.visit_bind _ (Gives.literal v)
  | .var x => by
    show Gives (node (Node.tag? anchors) follow (Tree.formNode _ Form.var.name (Tree.nameNode x))) _ _
    rw [node_formNode]
    exact Gives.visit_bind _ ((Gives.name x).map Tree.var)
  | .print e => by
    show Gives (node (Node.tag? anchors) follow (Tree.formNode _ Form.print.name e.toNode)) _ _
    rw [node_formNode]
    exact Gives.visit_bind _ ((node_toNode e).map Tree.print)
  | .declare x e =>
    Gives.node_listNode (f := .declare) nofun nofun nofun
      ((Gives.name x).bind ((node_toNode e).map (Tree.declare x)))
  | .assign x e =>
    Gives.node_listNode (f := .assign) nofun nofun nofun
      ((Gives.name x).bind ((node_toNode e).map (Tree.assign x)))
  | .define f ps b =>
    Gives.node_listNode (f := .define) nofun nofun nofun
      ((Gives.name f).bind ((Gives.params ps).bind ((node_toNode b).map (Tree.define f ps))))
  | .call f args =>
    Gives.node_listNode (f := .call) nofun nofun nofun
      ((Gives.name f).bind ((trees_toNodes args).map (Tree.call f)))
  | .binary op a b =>
    Gives.node_listNode (f := .operator op) nofun nofun nofun
      ((node_toNode a).bind ((node_toNode b).map (Tree.binary op a)))
  | .seq ts =>
    Gives.node_listNode (f := .seq) nofun nofun nofun ((trees_toNodes ts).map Tree.seq)
  | .cond c a b =>
    Gives.node_listNode (f := .cond) nofun nofun nofun
      ((node_toNode c).bind ((node_toNode a).bind ((node_toNode b).map (Tree.cond c a))))
  | .loop c b =>
    Gives.node_listNode (f := .loop) nofun nofun nofun
      ((node_toNode c).bind ((node_toNode b).map (Tree.loop c)))

/-- The nodes of trees denote the trees. -/
theorem trees_toNodes : (ts : List Tree) →
    Gives (trees (suspended (Node.tag? anchors) follow (Tree.toNodes ts))) (Tree.namesAll ts) ts
  | [] => Gives.pure []
  | t :: ts => (node_toNode t).bind ((trees_toNodes ts).map (List.cons t))

end

end Forms

end Decode

/-! ## The round trip -/

/-- The node of a tree is decoded to it, unless a name in it is empty. -/
theorem Tree.ofDocument_eq (t : Tree) (anchors : Anchors) :
    Tree.ofDocument ⟨t.toNode, anchors⟩ =
      if [] ∈ t.names then .error Decode.emptyName else .ok t := by
  have h : Decode.document ⟨t.toNode, anchors⟩ {} = _ := Decode.node_toNode t {} rfl
  unfold Tree.ofDocument
  rw [h]
  by_cases hmem : [] ∈ t.names
  · rw [if_pos hmem, if_pos hmem]
  · rw [if_neg hmem, if_neg hmem]

/-- The node of a tree denotes that tree exactly when no name in it is empty, and is refused for
an empty name exactly when there is one. -/
theorem Tree.ofDocument_toNode (t : Tree) (anchors : Anchors) :
    (Tree.ofDocument ⟨t.toNode, anchors⟩ = .ok t ↔ ∀ x ∈ t.names, x ≠ []) ∧
      (Tree.ofDocument ⟨t.toNode, anchors⟩ = .error ⟨{}, .notName []⟩ ↔ ∃ x ∈ t.names, x = []) := by
  rw [Tree.ofDocument_eq]
  by_cases hmem : [] ∈ t.names
  · rw [if_pos hmem]
    constructor
    · constructor
      · intro h
        cases h
      · intro hall
        exact absurd rfl (hall [] hmem)
    · exact ⟨fun _ => ⟨[], hmem, rfl⟩, fun _ => rfl⟩
  · rw [if_neg hmem]
    constructor
    · refine ⟨fun _ x hx hnil => ?_, fun _ => rfl⟩
      exact hmem (hnil ▸ hx)
    · constructor
      · intro h
        cases h
      · rintro ⟨x, hx, hnil⟩
        exact absurd (hnil ▸ hx) hmem

end TreeLang
