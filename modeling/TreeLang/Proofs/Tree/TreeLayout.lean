import TreeLang.Proofs.Tree.Recovery

/-!
# The layout of a tree

A tree is written in the layout of its node (`Tree.layout`). If its names are UTF-8 and not empty,
the node is regular, and the layout fits: a tree on one line is small, so its flow collections are
never nested too deeply (`Tree.fits_layout`). It may also be the root of a document
(`Tree.isRoot_layout`).
-/

set_option autoImplicit false

namespace TreeLang.Tree

open Yaml (Node Layout Style)
open Yaml.Layout (ofNode ofNodes Regular KeyRule charsOf depth depthAll)
open Yaml.TokenStream (maxDepth)
open Utf8 (encode)

/-- The layout in which a tree is written. -/
def layout (t : Tree) : Layout := ofNode false t.toNode

variable {t : Tree} {f : Form}

/-! ## Regularity -/

/-- The name of a form is recognized as a key and written plainly. -/
theorem keyRule_name (f : Form) :
    KeyRule (charsOf f.name) ∧ Style.choose true Yaml.Tag.str (charsOf f.name) = .plain := by
  have hall : ∀ g ∈ Form.all, charsOf g.name ≠ [] ∧ (charsOf g.name).length ≤ Yaml.TokenStream.keyReach ∧
      (∀ inFlow, Style.allowsPlain inFlow (charsOf g.name)) ∧
      Style.choose true Yaml.Tag.str (charsOf g.name) = .plain := by
    decide
  obtain ⟨hne, hshort, hplain, hchoose⟩ := hall f f.mem_all
  exact ⟨⟨hne, hshort, fun inFlow => Yaml.Scalar.plainRule_of_allowsPlain (hplain inFlow)⟩, hchoose⟩

/-- A form is regular if its operand is. -/
theorem regular_formNode (small : Bool) (f : Form) {o : Node} (h : Regular o) :
    Regular (formNode small f.name o) := by
  obtain ⟨hkey, hplain⟩ := keyRule_name f
  have hentry : Regular (.mapping {} Yaml.Tag.map small
      [(.scalar {} Yaml.Tag.str (encode (charsOf f.name)), o)]) := .mapping hkey hplain h
  rwa [Part.encode_charsOf_name] at hentry

theorem regular_nameNode {x : Text} (h : IsText x) : Regular (nameNode x) := by
  obtain ⟨cs, hne, rfl⟩ := h
  exact .scalar hne

/-- What stands in front of the trees is regular. -/
theorem regular_front {p : Part} (hp : p ∈ t.front) (h : ∀ x ∈ p.names, IsText x) : Regular p.node := by
  rcases mem_front hp with ⟨x, rfl⟩ | ⟨xs, rfl⟩
  · exact regular_nameNode (h x List.mem_cons_self)
  · rw [names_params] at h
    apply Regular.sequence
    intro n hn
    rw [List.map_map] at hn
    obtain ⟨x, hx, rfl⟩ := List.mem_map.1 hn
    exact regular_nameNode (h x hx)

theorem regular_intNode (v : Int64) : Regular (intNode v) := by
  obtain ⟨cs, hdecimal, htext⟩ := Style.ofInt64_eq_encode v
  rw [intNode, htext]
  apply Regular.scalar
  cases hdecimal <;> simp

theorem regular_nullNode : Regular nullNode := by
  have htext : utf8 "null" = encode ['n', 'u', 'l', 'l'] := Utf8.utf8_eq_encode _
  rw [nullNode, htext]
  exact .scalar (by simp)

/-- The node of a tree is regular. -/
theorem regular (t : Tree) (h : ∀ x ∈ t.names, IsText x) : Regular t.toNode := by
  induction t using induct_children with
  | h t ih =>
    cases hform : t.listForm? with
    | some f =>
      obtain ⟨hfront, hinside⟩ := names_inside hform h
      rw [toNode_listed hform]
      apply regular_formNode
      apply Regular.sequence
      intro n hn
      obtain ⟨p, hp, rfl⟩ := List.mem_map.1 hn
      rcases List.mem_append.1 hp with hp | hp
      · exact regular_front hp (hfront p hp)
      · obtain ⟨u, hu, rfl⟩ := List.mem_map.1 hp
        exact ih u hu (hinside u hu)
    | none =>
      cases t with
      | binary | seq | cond | loop | declare | assign | define | call => cases hform
      | literal v => exact regular_intNode v
      | none => exact regular_formNode _ .none regular_nullNode
      | var x => exact regular_formNode _ .var (regular_nameNode (h x List.mem_cons_self))
      | print e => exact regular_formNode _ .print (ih e List.mem_cons_self h)

/-! ## Flow collections -/

/-- A form is one level deeper than its operand where it is in flow style. -/
theorem depth_formNode (inFlow small : Bool) (form : Text) (o : Node) :
    depth true (ofNode inFlow (formNode small form o)) =
      depth true (ofNode (inFlow || small) o) + if (inFlow || small) = true then 1 else 0 := by
  rw [formNode, nameNode, ofNode, depth]

/-- A form is at most one level deeper than its operand. -/
theorem depth_formNode_le {inFlow small : Bool} {form : Text} {o : Node} {n : Nat}
    (h : ∀ g, depth true (ofNode g o) ≤ n) :
    depth true (ofNode inFlow (formNode small form o)) ≤ n + 1 := by
  have hle := h (inFlow || small)
  rw [depth_formNode]
  split <;> omega

/-- A list is at most one level deeper than its items. -/
theorem depth_list_le {inFlow flow : Bool} {ps : List Part} {n : Nat}
    (h : ∀ p ∈ ps, ∀ g, depth true (ofNode g p.node) ≤ n) :
    depth true (ofNode inFlow (Part.list flow ps).node) ≤ n + 1 := by
  show depth true (ofNode inFlow (.sequence {} Yaml.Tag.seq flow (ps.map Part.node))) ≤ n + 1
  rw [ofNode, depth, Yaml.Layout.ofNodes_eq_map, List.map_map]
  generalize (inFlow || flow || (ps.map Part.node).isEmpty) = g
  have hitems : depthAll true (ps.map (ofNode g ∘ Part.node)) ≤ n :=
    Yaml.Layout.depthAll_le_iff.2 (List.forall_mem_map.2 fun p hp => h p hp g)
  split <;> omega

/-- A list over several lines adds nothing, unless it is empty. -/
theorem depth_list_block {ps : List Part} {n : Nat} (hpos : 0 < n)
    (h : ∀ p ∈ ps, depth true (ofNode false p.node) ≤ n) :
    depth true (ofNode false (Part.list false ps).node) ≤ n := by
  cases ps with
  | nil => exact hpos
  | cons p ps =>
    show depth true (ofNode false (.sequence {} Yaml.Tag.seq false ((p :: ps).map Part.node))) ≤ n
    rw [ofNode, depth, Yaml.Layout.ofNodes_eq_map, List.map_map]
    exact Yaml.Layout.depthAll_le_iff.2 (List.forall_mem_map.2 h)

theorem depth_front {p : Part} (hp : p ∈ t.front) (g : Bool) : depth true (ofNode g p.node) ≤ 1 := by
  rcases mem_front hp with ⟨x, rfl⟩ | ⟨xs, rfl⟩
  · exact Nat.zero_le 1
  · apply depth_list_le
    intro q hq g'
    obtain ⟨x, -, rfl⟩ := List.mem_map.1 hq
    exact Nat.le_refl 0

/-- A tree adds two collections to those inside it: one for its form and one for its operands. -/
theorem depth_le_size (t : Tree) (inFlow : Bool) :
    depth true (ofNode inFlow t.toNode) ≤ 2 * t.size + 1 := by
  induction t using induct_children generalizing inFlow with
  | h t ih =>
    have hpos := t.size_pos
    cases hform : t.listForm? with
    | some f =>
      rw [toNode_listed hform]
      -- a tree inside is smaller, and the list and the entry around it are two more levels
      have hparts : ∀ p ∈ t.operandParts, ∀ g, depth true (ofNode g p.node) ≤ 2 * t.size - 1 := by
        intro p hp g
        rcases List.mem_append.1 hp with hp | hp
        · have hle := depth_front hp g
          omega
        · obtain ⟨u, hu, rfl⟩ := List.mem_map.1 hp
          have hlt := size_lt_of_mem_children hu
          have hle : depth true (ofNode g (Part.tree u).node) ≤ 2 * u.size + 1 := ih u hu g
          omega
      have hentry : depth true (ofNode inFlow
          (Part.entry t.isSmall f (.list false t.operandParts)).node) ≤ 2 * t.size - 1 + 1 + 1 :=
        depth_formNode_le fun g => depth_list_le hparts
      omega
    | none =>
      cases t with
      | binary | seq | cond | loop | declare | assign | define | call => cases hform
      | literal v => exact Nat.zero_le _
      | none | var x =>
        rw [toNode]
        exact Nat.le_trans (depth_formNode_le (n := 0) fun g => Nat.le_refl 0) (by omega)
      | print e =>
        have hlt : e.size < (print e).size := size_lt_of_mem_children List.mem_cons_self
        rw [toNode]
        exact Nat.le_trans (depth_formNode_le fun g => ih e List.mem_cons_self g) (by omega)

/-- Flow collections are nested only inside a small tree. -/
theorem depth_layout_le (t : Tree) : depth true t.layout ≤ 2 * flowLimit + 1 := by
  induction t using induct_children with
  | h t ih =>
    cases hsmall : t.isSmall with
    | true =>
      have hsize := isSmall_iff.1 hsmall
      exact Nat.le_trans (depth_le_size t false) (by omega)
    | false =>
      cases hform : t.listForm? with
      | some f =>
        rw [layout, toNode_listed hform, hsmall]
        show depth true (ofNode false (formNode false f.name (Part.list false t.operandParts).node)) ≤ _
        rw [depth_formNode]
        apply depth_list_block (Nat.succ_pos _)
        intro p hp
        rcases List.mem_append.1 hp with hp | hp
        · exact Nat.le_trans (depth_front hp false) (Nat.le_add_left _ _)
        · obtain ⟨u, hu, rfl⟩ := List.mem_map.1 hp
          exact ih u hu
      | none =>
        cases t with
        | binary | seq | cond | loop | declare | assign | define | call => cases hform
        | literal | none | var => cases hsmall
        | print e =>
          rw [layout, toNode, hsmall, depth_formNode]
          exact ih e List.mem_cons_self

/-- The layout of a tree fits. -/
theorem fits_layout (t : Tree) (h : ∀ x ∈ t.names, IsText x) : t.layout.Fits 0 := by
  have hdepth : 2 * flowLimit + 1 ≤ maxDepth := by decide
  apply Yaml.Layout.fits_ofNode (regular t h) rfl
  rw [Nat.zero_add]
  exact Nat.le_trans t.depth_layout_le hdepth

/-- A tree may be a whole document. -/
theorem isRoot_layout (t : Tree) : t.layout.IsRoot := by
  cases t with
  | literal v =>
    obtain ⟨cs, hdecimal, htext⟩ := Style.ofInt64_eq_encode v
    rw [layout, toNode, intNode, htext, ofNode, Yaml.Layout.charsOf_encode, hdecimal.choose (by decide)]
    rfl
  | _ =>
    rw [layout, toNode, formNode, nameNode, ofNode]
    trivial

end TreeLang.Tree
