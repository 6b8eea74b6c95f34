import TreeLang.Proofs.Tree.Recovery

/-!
# Flow style is inherited

A mapping in the node of a tree is the node of a tree again, which is not greater
(`Tree.exists_toNode_eq`). As the size alone decides whether a tree is written on one line, a
mapping in flow style has only mappings in flow style inside it (`Tree.flow_inherited`).
-/

set_option autoImplicit false

namespace TreeLang

namespace Yaml.Node

/-- Whether a node is a mapping. -/
def isMapping : Node → Bool
  | .mapping _ _ _ _ => true
  | .scalar _ _ _ | .sequence _ _ _ _ | .alias _ _ _ => false

/-- Whether a node is a collection in flow style. -/
def isFlow : Node → Bool
  | .sequence _ _ flow _ | .mapping _ _ flow _ => flow
  | .scalar _ _ _ | .alias _ _ _ => false

theorem partsOfAll_eq_flatMap (ns : List Node) : partsOfAll ns = ns.flatMap parts := by
  induction ns with
  | nil => rw [partsOfAll, List.flatMap_nil]
  | cons n ns ih => rw [partsOfAll, ih, List.flatMap_cons]

end Yaml.Node

open Yaml (Node Place)

/-! ## Mappings in the parts of a form -/

section

variable {m : Node} (hm : m.isMapping)

include hm

theorem Yaml.Node.not_mem_parts_scalar (p : Place) (tag v : Text) : m ∉ (scalar p tag v).parts := by
  rw [parts, List.mem_singleton]
  rintro rfl
  cases hm

/-- The parts of a form are the whole and those of its operand. -/
theorem Tree.mem_parts_formNode {small : Bool} {form : Text} {o : Node}
    (h : m ∈ (formNode small form o).parts) : m = formNode small form o ∨ m ∈ o.parts := by
  have hkey : m ∉ (nameNode form).parts := Node.not_mem_parts_scalar hm _ _ _
  simpa [formNode, Node.parts, Node.partsOfEntries, hkey] using h

/-- A mapping inside a list is inside one of its items. -/
theorem Part.exists_mem_of_mem_parts_list {flow : Bool} {ps : List Part}
    (h : m ∈ (list flow ps).node.parts) : ∃ p ∈ ps, m ∈ p.node.parts := by
  change m ∈ (Node.sequence {} Yaml.Tag.seq flow (ps.map node)).parts at h
  rw [Node.parts, Node.partsOfAll_eq_flatMap, List.flatMap_map] at h
  rcases List.mem_cons.1 h with rfl | h
  · cases hm
  · exact List.mem_flatMap.1 h

/-- There are no mappings in the names in front of the trees inside a tree. -/
theorem Tree.not_mem_parts_front {t : Tree} {p : Part} (hp : p ∈ t.front) : m ∉ p.node.parts := by
  rcases mem_front hp with ⟨x, rfl⟩ | ⟨xs, rfl⟩
  · exact Node.not_mem_parts_scalar hm _ _ _
  · intro h
    obtain ⟨q, hq, hmq⟩ := Part.exists_mem_of_mem_parts_list hm h
    obtain ⟨x, -, rfl⟩ := List.mem_map.1 hq
    exact Node.not_mem_parts_scalar hm _ _ _ hmq

end

namespace Tree

variable {t : Tree} {m : Node}

/-! ## Mappings in the node of a tree -/

/-- A mapping in the node of a tree is that node, or it is in the node of a tree directly inside. -/
theorem mem_parts_toNode (hm : m.isMapping) (h : m ∈ t.toNode.parts) :
    m = t.toNode ∨ ∃ u ∈ t.children, m ∈ u.toNode.parts := by
  cases hform : t.listForm? with
  | some f =>
    rw [toNode_listed hform] at h ⊢
    refine (mem_parts_formNode hm h).imp_right fun hlist => ?_
    obtain ⟨p, hp, hmp⟩ := Part.exists_mem_of_mem_parts_list hm hlist
    rcases List.mem_append.1 hp with hp | hp
    · exact absurd hmp (not_mem_parts_front hm hp)
    · obtain ⟨u, hu, rfl⟩ := List.mem_map.1 hp
      exact ⟨u, hu, hmp⟩
  | none =>
    cases t with
    | binary | seq | cond | loop | declare | assign | define | call => cases hform
    | literal v => exact absurd h (Node.not_mem_parts_scalar hm _ _ _)
    | none | var =>
      refine (mem_parts_formNode hm h).imp_right fun hoperand => ?_
      exact absurd hoperand (Node.not_mem_parts_scalar hm _ _ _)
    | print e =>
      refine (mem_parts_formNode hm h).imp_right fun hoperand => ?_
      exact ⟨e, List.mem_cons_self, hoperand⟩

/-- A mapping in the node of a tree is the node of a tree that is not greater. -/
theorem exists_toNode_eq (hm : m.isMapping) (h : m ∈ t.toNode.parts) :
    ∃ u : Tree, u.size ≤ t.size ∧ u.toNode = m := by
  induction t using induct_children with
  | h t ih =>
    rcases mem_parts_toNode hm h with rfl | ⟨u, hu, hmu⟩
    · exact ⟨t, Nat.le_refl _, rfl⟩
    · obtain ⟨v, hv, heq⟩ := ih u hu hmu
      have hlt : u.size < t.size := size_lt_of_mem_children hu
      exact ⟨v, by omega, heq⟩

/-- The mapping of a tree is in flow style exactly if the tree is small. -/
theorem isFlow_toNode_iff (h : t.toNode.isMapping) : t.toNode.isFlow ↔ t.size ≤ flowLimit := by
  have hflow : t.toNode.isFlow = t.isSmall := by
    cases t with
    | literal v => cases h
    | _ => rfl
  rw [hflow]
  exact isSmall_iff

/-- The count that stops early is at most six exactly if the number of trees in a tree is, and then
it is that number. So it is the number of trees that decides on the style of a mapping, and all
mappings inside a mapping in flow style are in flow style, wherever the mapping stands. -/
theorem flow_inherited (t : Tree) :
    (t.cappedSize ≤ 6 ↔ t.size ≤ 6) ∧ (t.size ≤ 6 → t.cappedSize = t.size) ∧
      (t.toNode.isMapping → (t.toNode.isFlow ↔ t.size ≤ 6)) ∧
      ∀ m ∈ t.toNode.parts, m.isMapping → m.isFlow → ∀ n ∈ m.parts, n.isMapping → n.isFlow := by
  have htells := tells_cappedSize t
  refine ⟨htells.le_iff, htells.eq_of_le, isFlow_toNode_iff, ?_⟩
  intro m hmt hm hflow n hnm hn
  obtain ⟨u, -, rfl⟩ := exists_toNode_eq hm hmt
  obtain ⟨v, hle, rfl⟩ := exists_toNode_eq hn hnm
  have hu : u.size ≤ flowLimit := (isFlow_toNode_iff hm).1 hflow
  exact (isFlow_toNode_iff hn).2 (Nat.le_trans hle hu)

/-- In a sequence of nine trees a print of six is on one line, and with it the sum inside the
print. -/
theorem flow_inherited_print :
    let sum : Tree := .binary .add (.var (utf8 "a")) (.literal 2)
    let shown : Tree := .print (.binary .mul (.var (utf8 "a")) sum)
    let t : Tree := .seq [.declare (utf8 "a") (.literal 1), shown]
    (shown.size ≤ 6 ∧ shown.cappedSize = shown.size) ∧
      (t.toNode.isMapping ∧ (t.toNode.isFlow ↔ t.size ≤ 6) ∧ t.size = 9 ∧ t.cappedSize = 9) ∧
      (shown.toNode ∈ t.toNode.parts ∧ shown.toNode.isMapping ∧ shown.toNode.isFlow) ∧
      sum.toNode ∈ shown.toNode.parts ∧ sum.toNode.isMapping ∧ sum.toNode.isFlow := by
  intro sum shown t
  have hsize : shown.size ≤ 6 := by decide
  have hshown : shown.toNode ∈ t.toNode.parts := by
    simp [t, toNode, toNodes, listNode, formNode, Node.parts, Node.partsOfAll, Node.partsOfEntries,
      shown.toNode.mem_parts]
  have hsum : sum.toNode ∈ shown.toNode.parts := by
    simp [shown, toNode, listNode, formNode, Node.parts, Node.partsOfAll, Node.partsOfEntries,
      sum.toNode.mem_parts]
  obtain ⟨-, hcount, -, -⟩ := flow_inherited shown
  obtain ⟨-, -, hstyle, hall⟩ := flow_inherited t
  exact ⟨⟨hsize, hcount hsize⟩, ⟨rfl, hstyle rfl, rfl, rfl⟩, ⟨hshown, rfl, rfl⟩, hsum, rfl,
    hall shown.toNode hshown rfl rfl sum.toNode hsum rfl⟩

end Tree

end TreeLang
