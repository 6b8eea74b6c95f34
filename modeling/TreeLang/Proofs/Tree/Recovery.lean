import TreeLang.Proofs.Tree.Expansion
import TreeLang.Proofs.Tree.Size
import TreeLang.Proofs.Yaml.Composed
import TreeLang.Proofs.Yaml.DecimalStyle
import TreeLang.Proofs.Yaml.NodeLayout

/-!
# Trees that are read back

The node of a tree is written in a layout, and what is read of the layout may differ from it. Here
it is said when the node that is read denotes the tree again: exactly if the layout is read back as
it was and no name in the tree is the merge key, which is not a text when it is read plainly
(`Tree.recovered`).

The node of a form is put together from parts: names, lists of names and trees (`Part`). What is to
be shown of a form follows from its parts, in the same way for all forms with a list of operands.
-/

set_option autoImplicit false

namespace TreeLang

open Yaml (Node Anchors Layout Style)
open Yaml.Layout (ofNode ofNodes Composes ComposesAll reread rereadAll spoiled Regular)
open Yaml.DocumentStream (scalarTag)
open Utf8 (encode)

/-! ## Derivations without anchors -/

section

mutual

/-- Without anchors no visit is counted. -/
theorem Derivation.visits_nil {y : Node} {t : Tree} : (d : Derivation [] y t) → d.visits false = 0
  | .expand _ hz _ => by simp at hz
  | .form _ ds => by
    rw [Derivation.visits, ds.visits_nil]
    rfl

theorem Derivations.visits_nil {ys : List Node} {ts : List Tree} :
    (ds : Derivations [] ys ts) → ds.visits false = 0
  | .nil => rfl
  | .cons d ds => by rw [Derivations.visits, d.visits_nil, ds.visits_nil]

end

/-- A node denotes a tree where there are no anchors. -/
def Node.Denotes (n : Node) (t : Tree) : Prop := Nonempty (Derivation [] n t)

/-- A node denotes at most one tree. -/
theorem Node.Denotes.unique {n : Node} {t u : Tree} (ht : Node.Denotes n t) (hu : Node.Denotes n u) :
    t = u := by
  obtain ⟨d⟩ := ht
  obtain ⟨d'⟩ := hu
  exact (d.unique d').1

theorem nonempty_derivations {ns : List Node} {ts : List Tree} :
    Nonempty (Derivations [] ns ts) ↔ List.Forall₂ Node.Denotes ns ts := by
  constructor
  · rintro ⟨ds⟩
    induction ns generalizing ts with
    | nil =>
      cases ds
      exact .nil
    | cons n ns ih =>
      cases ds with
      | cons d ds => exact .cons ⟨d⟩ (ih ds)
  · intro h
    induction h with
    | nil => exact ⟨.nil⟩
    | cons hd _ ih =>
      obtain ⟨d⟩ := hd
      obtain ⟨ds⟩ := ih
      exact ⟨.cons d ds⟩

/-- A node denotes a tree if it spells it from nodes that denote its children. -/
theorem denotes_iff {n : Node} {t : Tree} :
    Node.Denotes n t ↔ ∃ kids, Spells [] n t kids ∧ List.Forall₂ Node.Denotes kids t.children := by
  constructor
  · rintro ⟨d⟩
    cases d with
    | expand _ hz _ => simp at hz
    | form hs ds => exact ⟨_, hs, nonempty_derivations.1 ⟨ds⟩⟩
  · rintro ⟨kids, hs, hds⟩
    obtain ⟨ds⟩ := nonempty_derivations.2 hds
    exact ⟨.form hs ds⟩

/-- Without anchors a document is decoded to the tree that its node denotes. -/
theorem Tree.ofDocument_eq_ok_iff {n : Node} {t : Tree} :
    Tree.ofDocument ⟨n, []⟩ = .ok t ↔ Node.Denotes n t := by
  rcases Tree.ofDocument_cases ⟨n, []⟩ with ⟨u, d, hu, -⟩ | ⟨f, hf, -, hno⟩
  · rw [hu]
    constructor
    · rintro ⟨rfl⟩
      exact ⟨d⟩
    · intro ht
      rw [Node.Denotes.unique ⟨d⟩ ht]
  · rw [hf]
    constructor
    · intro h
      cases h
    · rintro ⟨d⟩
      have hlt := hno t d
      rw [Derivation.underAliases, d.visits_nil] at hlt
      exact absurd hlt (Nat.not_lt_zero _)

end

/-! ## Parts -/

/-- The text that is a merge key when it is read plainly. -/
def mergeKey : Text := utf8 "<<"

/-- A part of the node of a tree: how it is written, the names in it, and which nodes stand for
it. -/
structure Part where
  node : Node
  names : List Text
  Fills : Node → Prop

namespace Part

/-- What is read of a part stands for it exactly if the merge key is none of its names and its
layout is read back as it was. -/
def Recovered (p : Part) : Prop :=
  ∀ (inFlow : Bool) (room : Nat) (n : Node), (reread room (ofNode inFlow p.node)).Composes n →
    (p.Fills n ↔ (∀ x ∈ p.names, x ≠ mergeKey) ∧ reread room (ofNode inFlow p.node) = ofNode inFlow p.node)

/-- What is written as a part that is recovered, and read as one, is recovered. -/
theorem Recovered.congr {p q : Part} (h : p.Recovered) (hnode : q.node = p.node)
    (hnames : q.names = p.names) (hfills : ∀ n, q.Fills n ↔ p.Fills n) : q.Recovered := by
  intro inFlow room n hn
  rw [hnode] at hn ⊢
  rw [hfills, hnames]
  exact h inFlow room n hn

/-! ### What is read back of collections -/

/-- Inside a flow collection no scalar is written over several lines. -/
theorem choose_ne_literal (tag : Text) (cs : List Char) : Style.choose true tag cs ≠ .literal := by
  unfold Style.choose
  split
  · simp
  · split
    · simp
    · split
      · simp
      · split <;> simp

/-- Inside flow collections everything is read back as it was. -/
theorem reread_ofNode_flow (room : Nat) (n : Node) : reread room (ofNode true n) = ofNode true n := by
  unfold ofNode
  split
  · exact Layout.reread_scalar room _ (choose_ne_literal _ _)
  · exact Layout.reread_flow room rfl (by simp)
  · exact Layout.reread_flow room rfl (by simp)
  · exact Layout.reread_scalar room _ (by simp)

/-- Inside a flow collection everything is read as it is written. -/
theorem rereadAll_ofNodes_flow (room : Nat) (ns : List Node) :
    rereadAll room (ofNodes true ns) = ofNodes true ns := by
  induction ns with
  | nil => rfl
  | cons n ns ih => rw [ofNodes, rereadAll, ih, reread_ofNode_flow]

/-- A list is refused as a whole, or its items are read one by one. -/
theorem reread_sequence (inFlow : Bool) (room : Nat) (p : Yaml.Place) (tag : Text) (flow : Bool)
    (items : List Node) :
    ∃ g, ofNode inFlow (.sequence p tag flow items) = .list g (ofNodes g items) ∧
      (reread room (ofNode inFlow (.sequence p tag flow items)) = spoiled ∨
        ∃ room', reread room (ofNode inFlow (.sequence p tag flow items)) =
          .list g (rereadAll room' (ofNodes g items))) := by
  refine ⟨inFlow || flow || items.isEmpty, by rw [ofNode], ?_⟩
  rw [ofNode]
  cases inFlow || flow || items.isEmpty with
  | true =>
    refine Or.inr ⟨room, ?_⟩
    rw [Layout.reread_flow room rfl (by simp), rereadAll_ofNodes_flow]
  | false =>
    -- a block list needs room to be nested in
    cases room with
    | zero => exact Or.inl (by rw [reread])
    | succ room => exact Or.inr ⟨room, by rw [reread]⟩

/-- An entry is refused as a whole, or its operand is read. -/
theorem reread_formNode (inFlow : Bool) (room : Nat) (small : Bool) (form : Text) (o : Node) :
    ∃ g, ofNode inFlow (Tree.formNode small form o) = .entry g (Layout.charsOf form) (ofNode g o) ∧
      (reread room (ofNode inFlow (Tree.formNode small form o)) = spoiled ∨
        ∃ room', reread room (ofNode inFlow (Tree.formNode small form o)) =
          .entry g (Layout.charsOf form) (reread room' (ofNode g o))) := by
  refine ⟨inFlow || small, by rw [Tree.formNode, Tree.nameNode, ofNode], ?_⟩
  rw [Tree.formNode, Tree.nameNode, ofNode]
  cases inFlow || small with
  | true =>
    refine Or.inr ⟨room, ?_⟩
    rw [Layout.reread_flow room rfl (by simp), reread_ofNode_flow]
  | false =>
    cases room with
    | zero => exact Or.inl (by rw [reread])
    | succ room => exact Or.inr ⟨room, by rw [reread]⟩

theorem composes_spoiled {n : Node} (h : spoiled.Composes n) : ∃ p, n = .scalar p Yaml.Tag.str [] := h

/-! ### Lists -/

/-- The parts of a list. -/
def list (flow : Bool) (ps : List Part) : Part where
  node := .sequence {} Yaml.Tag.seq flow (ps.map node)
  names := ps.flatMap names
  Fills n := ∃ ns, n.IsList ns ∧ List.Forall₂ Fills ps ns

/-- What is read of parts one by one. -/
theorem fillAll_iff {g : Bool} {room : Nat} {ps : List Part} (hall : ∀ p ∈ ps, p.Recovered) :
    ∀ {ns : List Node}, ComposesAll (rereadAll room (ofNodes g (ps.map node))) ns →
      (List.Forall₂ Fills ps ns ↔ (∀ x ∈ ps.flatMap names, x ≠ mergeKey) ∧
        rereadAll room (ofNodes g (ps.map node)) = ofNodes g (ps.map node)) := by
  induction ps with
  | nil =>
    intro ns h
    rw [List.map_nil, ofNodes, rereadAll, ComposesAll] at h
    subst h
    simp [rereadAll, ofNodes]
  | cons p ps ih =>
    intro ns h
    obtain ⟨hp, hps⟩ := List.forall_mem_cons.1 hall
    rw [List.map_cons, ofNodes, rereadAll, ComposesAll] at h
    obtain ⟨n, ns, rfl, hn, hns⟩ := h
    rw [List.forall₂_cons, hp g room n hn, ih hps hns, List.map_cons, ofNodes, rereadAll,
      List.cons.injEq, List.flatMap_cons, List.forall_mem_append]
    exact and_and_and_comm

/-- A list is recovered if its items are. -/
theorem recovered_list {flow : Bool} {ps : List Part} (hall : ∀ p ∈ ps, p.Recovered) :
    (list flow ps).Recovered := by
  intro inFlow room n hn
  obtain ⟨g, hlayout, hread⟩ := reread_sequence inFlow room {} Yaml.Tag.seq flow (ps.map node)
  show (∃ ns, n.IsList ns ∧ List.Forall₂ Fills ps ns) ↔ (∀ x ∈ ps.flatMap names, x ≠ mergeKey) ∧
    reread room (ofNode inFlow (.sequence {} Yaml.Tag.seq flow (ps.map node))) = _
  change (reread room (ofNode inFlow (.sequence {} Yaml.Tag.seq flow (ps.map node)))).Composes n at hn
  rcases hread with hread | ⟨room', hread⟩
  · rw [hread] at hn ⊢
    obtain ⟨p, rfl⟩ := composes_spoiled hn
    constructor
    · rintro ⟨ns, hl, -⟩
      cases hl
    · rintro ⟨-, heq⟩
      exact absurd (heq.trans hlayout) (by simp [spoiled])
  · rw [hread, Composes] at hn
    obtain ⟨p, f, ns, rfl, hns⟩ := hn
    have hitems := fillAll_iff hall hns
    constructor
    · rintro ⟨_, hl, hfill⟩
      cases hl
      obtain ⟨hnames, heq⟩ := hitems.1 hfill
      exact ⟨hnames, by rw [hread, heq]; exact hlayout.symm⟩
    · rintro ⟨hnames, heq⟩
      have hlist := hread.symm.trans (heq.trans hlayout)
      exact ⟨ns, .intro, hitems.2 ⟨hnames, (Layout.list.inj hlist).2⟩⟩

/-! ### Entries -/

/-- A part behind the name of a form. -/
def entry (small : Bool) (f : Form) (p : Part) : Part where
  node := Tree.formNode small f.name p.node
  names := p.names
  Fills n := ∃ o, n.IsEntry f.name o ∧ p.Fills o

theorem encode_charsOf_name (f : Form) : encode (Layout.charsOf f.name) = f.name := by
  have hall : ∀ g ∈ Form.all, encode (Layout.charsOf g.name) = g.name := by decide
  exact hall f f.mem_all

/-- An entry is recovered if its operand is. Its key is the name of a form, which is always read as
it is written. -/
theorem recovered_entry {small : Bool} {f : Form} {p : Part} (hp : p.Recovered) :
    (entry small f p).Recovered := by
  intro inFlow room n hn
  obtain ⟨g, hlayout, hread⟩ := reread_formNode inFlow room small f.name p.node
  show (∃ o, n.IsEntry f.name o ∧ p.Fills o) ↔ (∀ x ∈ p.names, x ≠ mergeKey) ∧
    reread room (ofNode inFlow (Tree.formNode small f.name p.node)) = _
  change (reread room (ofNode inFlow (Tree.formNode small f.name p.node))).Composes n at hn
  rcases hread with hread | ⟨room', hread⟩
  · rw [hread] at hn ⊢
    obtain ⟨q, rfl⟩ := composes_spoiled hn
    constructor
    · rintro ⟨o, he, -⟩
      generalize f.name = x at he
      cases he
    · rintro ⟨-, heq⟩
      exact absurd (heq.trans hlayout) (by simp [spoiled])
  · rw [hread, Composes, encode_charsOf_name] at hn
    obtain ⟨q, flow, k, o, rfl, ho⟩ := hn
    have hoperand := hp g room' o ho
    constructor
    · rintro ⟨o', he, hfill⟩
      obtain ⟨-, rfl⟩ := he.unique .intro
      obtain ⟨hnames, heq⟩ := hoperand.1 hfill
      exact ⟨hnames, by rw [hread, heq]; exact hlayout.symm⟩
    · rintro ⟨hnames, heq⟩
      have hentry := hread.symm.trans (heq.trans hlayout)
      exact ⟨o, .intro, hoperand.2 ⟨hnames, (Layout.entry.inj hentry).2.2⟩⟩

/-! ### Names -/

/-- A name. -/
def name (x : Text) : Part where
  node := Tree.nameNode x
  names := [x]
  Fills n := n.IsName x

/-- A list of parameters. -/
def params (xs : List Text) : Part := list true (xs.map name)

theorem mergeKey_eq : mergeKey = encode ['<', '<'] := Utf8.utf8_eq_encode _

/-- A name that is the merge key is written plain, and so is not read as a name. -/
theorem choose_mergeKey (inFlow : Bool) : Style.choose inFlow Yaml.Tag.str ['<', '<'] = .plain := by
  cases inFlow <;> decide

/-- A scalar that is written over several lines has a line feed. -/
theorem feed_of_literal {inFlow : Bool} {tag : Text} {cs : List Char}
    (h : Style.choose inFlow tag cs = .literal) : '\n' ∈ cs := by
  by_contra hfeed
  have hcontains : cs.contains '\n' = false := by simpa using hfeed
  unfold Style.choose at h
  rw [hcontains, if_neg Bool.false_ne_true] at h
  split at h
  · cases h
  · split at h
    · cases h
    · split at h <;> cases h

/-- A text is written plainly only if it says nothing but itself. -/
theorem meaning_of_plain {inFlow : Bool} {cs : List Char}
    (h : Style.choose inFlow Yaml.Tag.str cs = .plain) :
    (Yaml.Scalar.meaning (encode cs)).tag = Yaml.Tag.str := by
  unfold Style.choose at h
  split at h
  · split at h <;> cases h
  · split at h
    · cases h
    · rename_i hsays
      by_contra hne
      exact hsays ⟨rfl, hne⟩

/-- A name that is read in the style it was written in is a text again, unless it is the merge
key. -/
theorem scalarTag_eq_iff {inFlow : Bool} {cs : List Char} :
    scalarTag (encode cs) (Style.choose inFlow Yaml.Tag.str cs == .plain) = Yaml.Tag.str ↔
      encode cs ≠ mergeKey := by
  by_cases hmerge : encode cs = mergeKey
  · -- the merge key is written plainly, and is no text when it is read so
    obtain rfl : cs = ['<', '<'] := Utf8.encode_injective (hmerge.trans mergeKey_eq)
    rw [choose_mergeKey]
    have htag : scalarTag (encode ['<', '<']) (Style.plain == Style.plain) ≠ Yaml.Tag.str := by
      decide
    exact iff_of_false htag fun hne => hne hmerge
  · refine iff_of_true ?_ hmerge
    unfold scalarTag
    by_cases hplain : Style.choose inFlow Yaml.Tag.str cs = .plain
    · have hmeaning := meaning_of_plain hplain
      rw [hplain]
      rw [if_neg (by decide), ← mergeKey, if_neg hmerge, hmeaning]
    · rw [if_pos]
      simpa using hplain

/-- A scalar is a name if it is a string and not empty. -/
theorem isName_scalar_iff {p : Yaml.Place} {tag v x : Text} :
    (Node.scalar p tag v).IsName x ↔ tag = Yaml.Tag.str ∧ v = x ∧ x ≠ [] := by
  constructor
  · intro h
    cases h with
    | intro hx => exact ⟨rfl, rfl, hx⟩
  · rintro ⟨rfl, rfl, hx⟩
    exact .intro hx

/-- A name is recovered: only the merge key and a name whose lines are spoiled are read as something
else. -/
theorem recovered_name {cs : List Char} (hne : cs ≠ []) : (name (encode cs)).Recovered := by
  intro inFlow room n hn
  have hlayout : ofNode inFlow (name (encode cs)).node =
      .scalar (Style.choose inFlow Yaml.Tag.str cs) cs := by
    rw [name, Tree.nameNode, ofNode, Layout.charsOf_encode]
  have htext : encode cs ≠ [] := fun hnil => hne (Utf8.encode_injective hnil)
  have hnames : (∀ x ∈ (name (encode cs)).names, x ≠ mergeKey) ↔ encode cs ≠ mergeKey :=
    List.forall_mem_singleton
  rw [hlayout] at hn ⊢
  rw [hnames]
  show n.IsName (encode cs) ↔ _
  by_cases hliteral : Style.choose inFlow Yaml.Tag.str cs = .literal
  · have hmerge : encode cs ≠ mergeKey := by
      intro heq
      obtain rfl := Utf8.encode_injective (heq.trans mergeKey_eq)
      exact absurd (feed_of_literal hliteral) (by decide)
    rw [hliteral] at hn ⊢
    rw [reread] at hn ⊢
    by_cases htab : cs.head? = some '\t'
    · rw [if_pos htab] at hn ⊢
      obtain ⟨p, rfl⟩ := composes_spoiled hn
      rw [isName_scalar_iff]
      exact iff_of_false (fun h => htext h.2.1.symm) (by simp [spoiled])
    · rw [if_neg htab] at hn ⊢
      rw [Composes] at hn
      obtain ⟨p, rfl⟩ := hn
      rw [isName_scalar_iff]
      constructor
      · rintro ⟨-, hback, -⟩
        exact ⟨hmerge, by rw [Utf8.encode_injective hback]⟩
      · rintro ⟨-, heq⟩
        exact ⟨rfl, congrArg encode (Layout.scalar.inj heq).2, htext⟩
  · rw [Layout.reread_scalar room cs hliteral] at hn ⊢
    rw [Composes] at hn
    obtain ⟨p, rfl⟩ := hn
    rw [isName_scalar_iff, scalarTag_eq_iff]
    exact and_congr_right fun _ => iff_of_true ⟨rfl, htext⟩ rfl

theorem recovered_params {xs : List Text} (h : ∀ x ∈ xs, ∃ cs, cs ≠ [] ∧ x = encode cs) :
    (params xs).Recovered := by
  apply recovered_list
  intro p hp
  obtain ⟨x, hx, rfl⟩ := List.mem_map.1 hp
  obtain ⟨cs, hne, rfl⟩ := h x hx
  exact recovered_name hne

end Part

/-! ## Trees -/

namespace Part

/-- A tree. -/
def tree (t : Tree) : Part where
  node := t.toNode
  names := t.names
  Fills n := Node.Denotes n t

/-- What stands in the place of an operand where there is none. -/
def absent : Part where
  node := Tree.nullNode
  names := []
  Fills n := n.HasTag [] Yaml.Tag.null

/-- The operand of the empty form is recovered: it is read back whatever is around it. -/
theorem recovered_absent : absent.Recovered := by
  intro inFlow room n hn
  have htext : utf8 "null" = encode ['n', 'u', 'l', 'l'] := Utf8.utf8_eq_encode _
  have hstyle : Style.choose inFlow Yaml.Tag.null ['n', 'u', 'l', 'l'] = .plain := by
    cases inFlow <;> decide
  have hlayout : ofNode inFlow Tree.nullNode = .scalar .plain ['n', 'u', 'l', 'l'] := by
    rw [Tree.nullNode, htext, ofNode, Layout.charsOf_encode, hstyle]
  change (reread room (ofNode inFlow Tree.nullNode)).Composes n at hn
  show n.HasTag [] Yaml.Tag.null ↔
    _ ∧ reread room (ofNode inFlow Tree.nullNode) = ofNode inFlow Tree.nullNode
  rw [hlayout, Layout.reread_scalar room _ (by simp)] at *
  rw [Composes] at hn
  obtain ⟨p, rfl⟩ := hn
  have htag : scalarTag (encode ['n', 'u', 'l', 'l']) (Style.plain == Style.plain) = Yaml.Tag.null := by
    decide
  exact iff_of_true (htag ▸ .scalar) ⟨List.forall_mem_nil _, rfl⟩

/-- A number is recovered: it is written plain, and read as the number it is. -/
theorem recovered_literal (v : Int64) : (tree (.literal v)).Recovered := by
  intro inFlow room n hn
  obtain ⟨cs, hdecimal, htext⟩ := Style.ofInt64_eq_encode v
  have hlayout : ofNode inFlow (Tree.literal v).toNode = .scalar .plain cs := by
    rw [Tree.toNode, Tree.intNode, htext, ofNode, Layout.charsOf_encode, hdecimal.choose (by decide)]
  change (reread room (ofNode inFlow (Tree.literal v).toNode)).Composes n at hn
  show Node.Denotes n (.literal v) ↔ _ ∧
    reread room (ofNode inFlow (Tree.literal v).toNode) = ofNode inFlow (Tree.literal v).toNode
  rw [hlayout, Layout.reread_scalar room _ (by simp)] at *
  rw [Composes, ← htext] at hn
  obtain ⟨p, rfl⟩ := hn
  have hmerge : Text.ofInt64 v ≠ utf8 "<<" := by
    intro heq
    have hmeaning := Yaml.Scalar.meaning_ofInt64 v
    rw [heq] at hmeaning
    exact absurd hmeaning (by
      rw [show Yaml.Scalar.meaning (utf8 "<<") = .str by decide]
      simp)
  have htag : scalarTag (Text.ofInt64 v) (Style.plain == Style.plain) = Yaml.Tag.int := by
    unfold scalarTag
    rw [if_neg (by decide), if_neg hmerge, Yaml.Scalar.meaning_ofInt64]
    rfl
  rw [htag]
  refine iff_of_true ?_ ⟨List.forall_mem_nil _, rfl⟩
  exact denotes_iff.2 ⟨[], .literal (.intro (Yaml.Scalar.toInt64_ofInt64 p v)), .nil⟩

end Part

namespace Tree

/-- The names in front of the trees inside a tree, as they stand in its list of operands. -/
def front : Tree → List Part
  | .declare x _ | .assign x _ => [.name x]
  | .define f ps _ => [.name f, .params ps]
  | .call f _ => [.name f]
  | _ => []

/-- The form of a tree that has a list of operands. -/
def listForm? : Tree → Option Form
  | .binary op _ _ => some (.operator op)
  | .seq _ => some .seq
  | .cond _ _ _ => some .cond
  | .loop _ _ => some .loop
  | .declare _ _ => some .declare
  | .assign _ _ => some .assign
  | .define _ _ _ => some .define
  | .call _ _ => some .call
  | _ => Option.none

/-- The parts of the list of operands. -/
def operandParts (t : Tree) : List Part := t.front ++ t.children.map Part.tree

theorem toNodes_eq_map (ts : List Tree) : toNodes ts = (ts.map Part.tree).map Part.node := by
  induction ts with
  | nil => rfl
  | cons t ts ih =>
    rw [toNodes, ih]
    rfl

theorem namesAll_eq_flatMap (ts : List Tree) : namesAll ts = (ts.map Part.tree).flatMap Part.names := by
  induction ts with
  | nil => rfl
  | cons t ts ih =>
    rw [namesAll, ih]
    rfl

theorem paramsNode_eq (ps : List Text) : paramsNode ps = (Part.params ps).node := by
  unfold paramsNode Part.params Part.list
  rw [List.map_map]
  rfl

theorem names_params (ps : List Text) : (Part.params ps).names = ps := by
  show (ps.map Part.name).flatMap Part.names = ps
  rw [List.flatMap_map]
  exact List.flatMap_singleton' ps

variable {t : Tree} {f : Form}

/-- A form with a list of operands is written as an entry with a list. -/
theorem toNode_listed (h : t.listForm? = some f) :
    t.toNode = (Part.entry t.isSmall f (.list false t.operandParts)).node := by
  cases t with
  | none | literal | var | print => cases h
  | binary | cond | loop | declare | assign =>
    cases h
    rfl
  | define g ps b =>
    cases h
    rw [toNode, paramsNode_eq]
    rfl
  | seq ts | call _ ts =>
    cases h
    rw [toNode, toNodes_eq_map]
    rfl

/-- The names of a form with a list of operands are those of the operands. -/
theorem names_listed (h : t.listForm? = some f) : t.names = t.operandParts.flatMap Part.names := by
  cases t with
  | none | literal | var | print => cases h
  | binary | cond | loop | declare | assign =>
    simp [names, operandParts, front, children, Part.tree, Part.name]
  | define g ps b =>
    have hps := names_params ps
    simp [names, operandParts, front, children, Part.tree, Part.name, hps]
  | seq ts | call _ ts =>
    rw [names, namesAll_eq_flatMap]
    rfl

/-- Only one form makes a tree that has a list of operands. -/
theorem form_eq_of_takes {anchors : Anchors} {g : Form} {o : Node} {kids : List Node}
    (h : t.listForm? = some f) (hg : g.Takes anchors o t kids) : g = f := by
  cases hg <;> cases h <;> rfl

/-- Parameters are filled by a list of names. -/
theorem fills_params {o : Node} {ps : List Text} :
    (Part.params ps).Fills o ↔ ∃ items, o.IsList items ∧ List.Forall₂ Node.IsName items ps := by
  show (∃ ns, o.IsList ns ∧ List.Forall₂ Part.Fills (ps.map Part.name) ns) ↔ _
  refine exists_congr fun ns => and_congr_right fun _ => ?_
  rw [List.forall₂_map_left_iff]
  exact ⟨fun h => h.flip, fun h => h.flip⟩

/-- The nodes in front of the operands, where no part stands there. -/
theorem isList_front_nil {o : Node} {kids : List Node} :
    (∃ ns, o.IsList (ns ++ kids) ∧ List.Forall₂ Part.Fills [] ns) ↔ o.IsList kids := by
  constructor
  · rintro ⟨_, hl, ⟨⟩⟩
    exact hl
  · exact fun hl => ⟨[], hl, .nil⟩

/-- The nodes in front of the operands, from that of the first part on. -/
theorem isList_front_cons {o : Node} {kids : List Node} {p : Part} {ps : List Part} :
    (∃ ns, o.IsList (ns ++ kids) ∧ List.Forall₂ Part.Fills (p :: ps) ns) ↔
      ∃ n, p.Fills n ∧ ∃ ns, o.IsList (n :: ns ++ kids) ∧ List.Forall₂ Part.Fills ps ns := by
  constructor
  · rintro ⟨_, hl, hfront⟩
    cases hfront with
    | cons hn hns => exact ⟨_, hn, _, hl, hns⟩
  · rintro ⟨n, hn, ns, hl, hns⟩
    exact ⟨n :: ns, hl, .cons hn hns⟩

/-- The nodes in front of the operands, where one part stands there. -/
theorem isList_front_one {o : Node} {kids : List Node} {p : Part} :
    (∃ ns, o.IsList (ns ++ kids) ∧ List.Forall₂ Part.Fills [p] ns) ↔
      ∃ n, p.Fills n ∧ o.IsList (n :: kids) := by
  rw [isList_front_cons]
  refine exists_congr fun n => and_congr_right fun _ => ?_
  constructor
  · rintro ⟨_, hl, ⟨⟩⟩
    exact hl
  · exact fun hl => ⟨[], hl, .nil⟩

/-- A form with a list of operands takes what stands for the names in front, and then the nodes of
the trees inside. -/
theorem takes_listed {o : Node} {kids : List Node} (h : t.listForm? = some f)
    (hlength : kids.length = t.children.length) :
    f.Takes [] o t kids ↔ ∃ ns, o.IsList (ns ++ kids) ∧ List.Forall₂ Part.Fills t.front ns := by
  cases t with
  | none | literal | var | print => cases h
  | binary op a b =>
    cases h
    obtain ⟨x, y, rfl⟩ := List.length_eq_two.1 hlength
    refine Iff.trans ⟨?_, .operator op a b⟩ isList_front_nil.symm
    rintro ⟨⟩
    assumption
  | seq ts =>
    cases h
    refine Iff.trans ⟨?_, .seq ts⟩ isList_front_nil.symm
    rintro ⟨⟩
    assumption
  | cond c a b =>
    cases h
    obtain ⟨x, y, z, rfl⟩ := List.length_eq_three.1 hlength
    refine Iff.trans ⟨?_, .cond c a b⟩ isList_front_nil.symm
    rintro ⟨⟩
    assumption
  | loop c b =>
    cases h
    obtain ⟨x, y, rfl⟩ := List.length_eq_two.1 hlength
    refine Iff.trans ⟨?_, .loop c b⟩ isList_front_nil.symm
    rintro ⟨⟩
    assumption
  | declare x e =>
    cases h
    obtain ⟨y, rfl⟩ := List.length_eq_one_iff.1 hlength
    refine Iff.trans ⟨?_, fun ⟨_, hx, hl⟩ => .declare e hl hx⟩ isList_front_one.symm
    rintro ⟨⟩
    exact ⟨_, ‹_›, ‹_›⟩
  | assign x e =>
    cases h
    obtain ⟨y, rfl⟩ := List.length_eq_one_iff.1 hlength
    refine Iff.trans ⟨?_, fun ⟨_, hx, hl⟩ => .assign e hl hx⟩ isList_front_one.symm
    rintro ⟨⟩
    exact ⟨_, ‹_›, ‹_›⟩
  | define g ps b =>
    cases h
    obtain ⟨y, rfl⟩ := List.length_eq_one_iff.1 hlength
    -- the name comes first, and behind it the list of parameters
    refine Iff.trans ⟨?_, ?_⟩ isList_front_cons.symm
    · intro htakes
      cases htakes with
      | define _ hl hx hps hxs => exact ⟨_, hx, [_], hl, .cons (fills_params.2 ⟨_, hps, hxs⟩) .nil⟩
    · rintro ⟨n, hx, ns, hl, hfront⟩
      cases hfront with
      | cons hps hnil =>
        cases hnil
        obtain ⟨items, hps, hxs⟩ := fills_params.1 hps
        exact .define b hl hx hps hxs
  | call g args =>
    cases h
    refine Iff.trans ⟨?_, fun ⟨_, hx, hl⟩ => .call args hl hx⟩ isList_front_one.symm
    rintro ⟨⟩
    exact ⟨_, ‹_›, ‹_›⟩

/-- Trees are filled by nodes that denote them. -/
theorem fill_trees {ns : List Node} {ts : List Tree} :
    List.Forall₂ Part.Fills (ts.map Part.tree) ns ↔ List.Forall₂ Node.Denotes ns ts := by
  rw [List.forall₂_map_left_iff]
  exact ⟨fun h => h.flip, fun h => h.flip⟩

theorem fill_append {ps qs : List Part} {ns : List Node} :
    List.Forall₂ Part.Fills (ps ++ qs) ns ↔
      ∃ ms ks, ns = ms ++ ks ∧ List.Forall₂ Part.Fills ps ms ∧ List.Forall₂ Part.Fills qs ks := by
  constructor
  · intro h
    induction ps generalizing ns with
    | nil => exact ⟨[], ns, rfl, .nil, h⟩
    | cons p ps ih =>
      cases h with
      | cons hp h =>
        obtain ⟨ms, ks, rfl, hms, hks⟩ := ih h
        exact ⟨_ :: ms, ks, rfl, .cons hp hms, hks⟩
  · rintro ⟨ms, ks, rfl, hms, hks⟩
    exact List.rel_append hms hks

/-- The nodes that denote a tree with a list of operands are those that its parts fill. -/
theorem denotes_listed {n : Node} (h : t.listForm? = some f) :
    Node.Denotes n t ↔ (Part.entry t.isSmall f (.list false t.operandParts)).Fills n := by
  rw [denotes_iff]
  constructor
  · rintro ⟨kids, hs, hds⟩
    cases hs with
    | literal _ => cases h
    | form he ho =>
      obtain rfl := form_eq_of_takes h ho
      obtain ⟨ns, hl, hfront⟩ := (takes_listed h hds.length_eq).1 ho
      exact ⟨_, he, _, hl, fill_append.2 ⟨ns, kids, rfl, hfront, fill_trees.2 hds⟩⟩
  · rintro ⟨o, he, ns, hl, hfill⟩
    obtain ⟨ms, kids, rfl, hfront, hkids⟩ := fill_append.1 hfill
    have hds := fill_trees.1 hkids
    exact ⟨kids, .form he ((takes_listed h hds.length_eq).2 ⟨ms, hl, hfront⟩), hds⟩

/-- Texts that can be names: they are UTF-8 and not empty. -/
def IsText (x : Text) : Prop := ∃ cs, cs ≠ [] ∧ x = encode cs

/-- In front of the trees stand names and parameters. -/
theorem mem_front {p : Part} (h : p ∈ t.front) : (∃ x, p = .name x) ∨ ∃ xs, p = .params xs := by
  cases t with
  | none | literal | var | print | binary | seq | cond | loop => cases h
  | declare x _ | assign x _ | call x _ => exact Or.inl ⟨x, List.mem_singleton.1 h⟩
  | define g ps _ =>
    rcases List.mem_cons.1 h with rfl | h
    · exact Or.inl ⟨g, rfl⟩
    · exact Or.inr ⟨ps, List.mem_singleton.1 h⟩

/-- The names of a tree are those of the parts in front and those of the trees inside. -/
theorem names_inside (hform : t.listForm? = some f) (h : ∀ x ∈ t.names, IsText x) :
    (∀ p ∈ t.front, ∀ x ∈ p.names, IsText x) ∧ ∀ u ∈ t.children, ∀ x ∈ u.names, IsText x := by
  rw [names_listed hform] at h
  constructor
  · intro p hp x hx
    apply h
    exact List.mem_flatMap.2 ⟨p, List.mem_append_left _ hp, hx⟩
  · intro u hu x hx
    apply h
    exact List.mem_flatMap.2 ⟨.tree u, List.mem_append_right _ (List.mem_map_of_mem hu), hx⟩

/-- What stands in front of the trees is recovered. -/
theorem recovered_front {p : Part} (hp : p ∈ t.front) (h : ∀ x ∈ p.names, IsText x) : p.Recovered := by
  rcases mem_front hp with ⟨x, rfl⟩ | ⟨xs, rfl⟩
  · obtain ⟨cs, hne, rfl⟩ := h x List.mem_cons_self
    exact Part.recovered_name hne
  · rw [names_params] at h
    exact Part.recovered_params h

theorem denotes_none {n : Node} :
    Node.Denotes n .none ↔ ∃ o, n.IsEntry Form.none.name o ∧ o.HasTag [] Yaml.Tag.null := by
  rw [denotes_iff]
  constructor
  · rintro ⟨kids, hs, -⟩
    cases hs with
    | form he ho =>
      cases ho with
      | none htag => exact ⟨_, he, htag⟩
  · rintro ⟨o, he, htag⟩
    exact ⟨[], .form he (.none htag), .nil⟩

/-- A variable is denoted by an entry with its name. -/
theorem denotes_var {n : Node} {x : Text} :
    Node.Denotes n (.var x) ↔ ∃ o, n.IsEntry Form.var.name o ∧ o.IsName x := by
  rw [denotes_iff]
  constructor
  · rintro ⟨kids, hs, -⟩
    cases hs with
    | form he ho =>
      cases ho with
      | var hname => exact ⟨_, he, hname⟩
  · rintro ⟨o, he, hname⟩
    exact ⟨[], .form he (.var hname), .nil⟩

/-- A print is denoted by an entry with a node of the tree. -/
theorem denotes_print {n : Node} {e : Tree} :
    Node.Denotes n (.print e) ↔ ∃ o, n.IsEntry Form.print.name o ∧ Node.Denotes o e := by
  rw [denotes_iff]
  constructor
  · rintro ⟨kids, hs, hds⟩
    cases hs with
    | form he ho =>
      cases ho with
      | print _ =>
        cases hds with
        | cons hd _ => exact ⟨_, he, hd⟩
  · rintro ⟨o, he, hd⟩
    exact ⟨[o], .form he (.print e), .cons hd .nil⟩

/-- What is read of the layout of a tree denotes the tree exactly if the merge key is none of its
names and the layout is read back as it was. -/
theorem recovered (t : Tree) (h : ∀ x ∈ t.names, IsText x) : (Part.tree t).Recovered := by
  induction t using induct_children with
  | h t ih =>
    cases hform : t.listForm? with
    | some f =>
      obtain ⟨hfront, hinside⟩ := names_inside hform h
      have hparts : ∀ p ∈ t.operandParts, p.Recovered := by
        intro p hp
        rcases List.mem_append.1 hp with hp | hp
        · exact recovered_front hp (hfront p hp)
        · obtain ⟨u, hu, rfl⟩ := List.mem_map.1 hp
          exact ih u hu (hinside u hu)
      exact (Part.recovered_entry (Part.recovered_list hparts)).congr (toNode_listed hform)
        (names_listed hform) fun n => denotes_listed hform
    | none =>
      -- a literal is a scalar, and the other trees have one operand without a list around it
      cases t with
      | binary | seq | cond | loop | declare | assign | define | call => cases hform
      | literal v => exact Part.recovered_literal v
      | none =>
        exact (Part.recovered_entry (f := .none) Part.recovered_absent).congr rfl rfl
          fun _ => denotes_none
      | var x =>
        obtain ⟨cs, hne, rfl⟩ := h x (by simp [names])
        exact (Part.recovered_entry (f := .var) (Part.recovered_name hne)).congr rfl rfl
          fun _ => denotes_var
      | print e =>
        have he := ih e (by simp [children]) h
        exact (Part.recovered_entry (f := .print) he).congr rfl rfl fun _ => denotes_print

end Tree

end TreeLang
