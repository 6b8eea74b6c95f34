import TreeLang.Proofs.Tree.Codec

/-!
# The grammar of trees

Which node denotes which tree, said without a decoder. A node spells the root of a tree and holds
nodes in the places of the trees inside (`Spells`), and an alias stands for the node it refers to. A
derivation puts such steps together (`Derivation`). It is kept as data, because it is counted as
well: `Derivation.underAliases` is the number of nodes in the places of trees that lie under an
alias.

Aliases make the nodes of a document a graph that may have cycles, but a derivation is finite. A
node has at most one derivation up to proofs (`Derivation.unique`), so a derivation never meets an
alias again inside the node that it refers to (`Derivation.avoids`): the inner derivation would be
as great as the one it is a part of.

The form without operand asks for the tag of a node, and the tag of an alias is that of the node it
refers to (`Node.HasTag`). This may be an alias again, and from alias to alias there need not be an
end (`Node.Endless`). A node has a tag or is endless, and not both (`Node.endless_iff_not_hasTag`).
-/

set_option autoImplicit false

namespace TreeLang

open Yaml (Node Anchors Place)

/-! ## Shapes of nodes -/

namespace Yaml.Node

/-- A scalar with the tag of integers that is a machine integer. -/
inductive IsInteger : Node → Int64 → Prop
  | intro {p : Place} {text : Text} {v : Int64} (h : Scalar.toInt64 p text = .ok v) :
      IsInteger (.scalar p Tag.int text) v

/-- A scalar with the tag of texts that is not empty. -/
inductive IsName : Node → Text → Prop
  | intro {p : Place} {x : Text} (h : x ≠ []) : IsName (.scalar p Tag.str x) x

/-- A sequence that is written out, so no alias of one. -/
inductive IsList : Node → List Node → Prop
  | intro {p : Place} {tag : Text} {flow : Bool} {items : List Node} :
      IsList (.sequence p tag flow items) items

/-- A mapping with one entry, the key of which is a scalar. -/
inductive IsEntry : Node → Text → Node → Prop
  | intro {p k : Place} {tag ktag kind : Text} {flow : Bool} {operand : Node} :
      IsEntry (.mapping p tag flow [(.scalar k ktag kind, operand)]) kind operand

/-- An alias of the anchored node with a number. -/
inductive IsAlias : Node → Nat → Prop
  | intro {p : Place} {name : Text} {k : Nat} : IsAlias (.alias p name k) k

theorem IsName.unique {y : Node} {x x' : Text} (h : y.IsName x) (h' : y.IsName x') : x = x' := by
  cases h
  cases h'
  rfl

theorem IsList.unique {y : Node} {ns ns' : List Node} (h : y.IsList ns) (h' : y.IsList ns') :
    ns = ns' := by
  cases h
  cases h'
  rfl

/-- A node is an entry in one way. -/
theorem IsEntry.unique {y o o' : Node} {x x' : Text} (h : y.IsEntry x o) (h' : y.IsEntry x' o') :
    x = x' ∧ o = o' := by
  cases h
  cases h'
  exact ⟨rfl, rfl⟩

theorem IsAlias.unique {y : Node} {k k' : Nat} (h : y.IsAlias k) (h' : y.IsAlias k') : k = k' := by
  cases h
  cases h'
  rfl

/-- Nodes are a list of names in one way. -/
theorem areNames_unique {ns : List Node} {xs xs' : List Text} (h : List.Forall₂ IsName ns xs)
    (h' : List.Forall₂ IsName ns xs') : xs = xs' := by
  induction h generalizing xs' with
  | nil =>
    cases h'
    rfl
  | cons hx _ ih =>
    cases h' with
    | cons hx' h' => rw [hx.unique hx', ih h']

/-! ## Tags -/

section Tags

variable {anchors : Anchors} {y : Node} {t t' : Text}

/-- The tag of a node. An alias has the tag of the node it refers to, and the empty tag if it refers
to nothing. -/
inductive HasTag (anchors : Anchors) : Node → Text → Prop
  | scalar {p : Place} {t v : Text} : HasTag anchors (.scalar p t v) t
  | sequence {p : Place} {t : Text} {flow : Bool} {items : List Node} :
      HasTag anchors (.sequence p t flow items) t
  | mapping {p : Place} {t : Text} {flow : Bool} {entries : List (Node × Node)} :
      HasTag anchors (.mapping p t flow entries) t
  | follow {p : Place} {name t : Text} {k : Nat} {z : Node} (hz : anchors[k]? = some z)
      (h : HasTag anchors z t) : HasTag anchors (.alias p name k) t
  | lost {p : Place} {name : Text} {k : Nat} (hz : anchors[k]? = none) :
      HasTag anchors (.alias p name k) []

/-- The node that so many aliases lead to, one after the other. -/
def behind? (anchors : Anchors) : Nat → Node → Option Node
  | 0, y => some y
  | n + 1, .alias _ _ k => anchors[k]?.bind (behind? anchors n)
  | _ + 1, _ => none

/-- However many aliases are followed from a node, there is a further one. -/
def Endless (anchors : Anchors) (y : Node) : Prop := ∀ n, ∃ z, y.behind? anchors n = some z

/-- A node with a tag is not endless: after the aliases that lead to the tag there is none. -/
theorem HasTag.not_endless (h : y.HasTag anchors t) : ¬ y.Endless anchors := by
  induction h with
  | scalar | sequence | mapping =>
    intro hend
    obtain ⟨z, hz⟩ := hend 1
    cases hz
  | follow hz _ ih =>
    intro hend
    refine ih fun n => ?_
    obtain ⟨w, hw⟩ := hend (n + 1)
    rw [behind?, hz] at hw
    exact ⟨w, hw⟩
  | lost hz =>
    intro hend
    obtain ⟨w, hw⟩ := hend 1
    rw [behind?, hz] at hw
    cases hw

/-- A node without a tag is an alias of a node without a tag. -/
theorem exists_target_of_not_hasTag (h : ∀ t, ¬ y.HasTag anchors t) :
    ∃ p name k z, y = .alias p name k ∧ anchors[k]? = some z ∧ ∀ t, ¬ z.HasTag anchors t := by
  cases y with
  | scalar | sequence | mapping => exact absurd (by constructor) (h _)
  | «alias» p name k =>
    cases hz : anchors[k]? with
    | none => exact absurd (.lost hz) (h [])
    | some z => exact ⟨p, name, k, z, rfl, hz, fun t ht => h t (.follow hz ht)⟩

/-- A node without a tag is an alias without end. -/
theorem endless_of_not_hasTag (h : ∀ t, ¬ y.HasTag anchors t) : y.Endless anchors := by
  intro n
  induction n generalizing y with
  | zero => exact ⟨y, rfl⟩
  | succ n ih =>
    obtain ⟨p, name, k, z, rfl, hz, hnone⟩ := exists_target_of_not_hasTag h
    rw [behind?, hz]
    exact ih hnone

/-- A node has no tag exactly if it is an alias from which aliases lead on without end. -/
theorem endless_iff_not_hasTag : y.Endless anchors ↔ ∀ t, ¬ y.HasTag anchors t :=
  ⟨fun h _ ht => ht.not_endless h, endless_of_not_hasTag⟩

/-- What is found within some room is a tag. -/
theorem hasTag_of_tagWithin {room : Nat} (h : y.tagWithin anchors room = some t) :
    y.HasTag anchors t := by
  induction room generalizing y with
  | zero => cases h
  | succ room ih =>
    cases y with
    | scalar | sequence | mapping =>
      cases h
      constructor
    | «alias» p name k =>
      rw [tagWithin] at h
      cases hz : anchors[k]? with
      | none =>
        rw [hz] at h
        cases h
        exact .lost hz
      | some z =>
        rw [hz] at h
        exact .follow hz (ih h)

/-- A tag is found within as much room as there are nodes on the way to it. -/
theorem HasTag.exists_tagWithin (h : y.HasTag anchors t) :
    ∃ room, y.tagWithin anchors room = some t := by
  induction h with
  | scalar | sequence | mapping => exact ⟨1, rfl⟩
  | follow hz _ ih =>
    obtain ⟨room, hroom⟩ := ih
    exact ⟨room + 1, by rw [tagWithin, hz]; exact hroom⟩
  | lost hz => exact ⟨1, by rw [tagWithin, hz]⟩

/-- More room finds the same tag. -/
theorem tagWithin_mono {room more : Nat} (h : y.tagWithin anchors room = some t)
    (hle : room ≤ more) : y.tagWithin anchors more = some t := by
  induction room generalizing y more with
  | zero => cases h
  | succ room ih =>
    obtain ⟨more, rfl⟩ := Nat.exists_eq_add_one_of_ne_zero (Nat.ne_of_gt (Nat.zero_lt_of_lt hle))
    cases y with
    | scalar | sequence | mapping => exact h
    | «alias» p name k =>
      rw [tagWithin] at h ⊢
      cases hz : anchors[k]? with
      | none =>
        rw [hz] at h
        exact h
      | some z =>
        rw [hz] at h
        exact ih h (Nat.le_of_succ_le_succ hle)

/-- So many aliases stand before the tag of a node. -/
def FoundAt (anchors : Anchors) (y : Node) (n : Nat) : Prop :=
  (∃ t, y.tagWithin anchors (n + 1) = some t) ∧ y.tagWithin anchors n = none

/-- A tag is found at one distance. -/
theorem FoundAt.unique {n n' : Nat} (h : y.FoundAt anchors n) (h' : y.FoundAt anchors n') :
    n = n' := by
  have not_lt {a b : Nat} (ha : y.FoundAt anchors a) (hb : y.FoundAt anchors b) : ¬ a < b := by
    intro hlt
    obtain ⟨t, ht⟩ := ha.1
    have hfound := tagWithin_mono ht hlt
    rw [hb.2] at hfound
    cases hfound
  exact Nat.le_antisymm (Nat.le_of_not_lt (not_lt h' h)) (Nat.le_of_not_lt (not_lt h h'))

/-- A node with aliases before its tag is an alias of a node with one alias fewer. -/
theorem FoundAt.exists_target {n : Nat} (h : y.FoundAt anchors (n + 1)) :
    ∃ (k : Nat) (z : Node), anchors[k]? = some z ∧ z.FoundAt anchors n := by
  obtain ⟨⟨t, ht⟩, hnone⟩ := h
  cases y with
  | scalar | sequence | mapping => cases hnone
  | «alias» p name k =>
    rw [tagWithin] at ht hnone
    cases hz : anchors[k]? with
    | none =>
      rw [hz] at hnone
      cases hnone
    | some z =>
      rw [hz] at ht hnone
      exact ⟨k, z, hz, ⟨t, ht⟩, hnone⟩

/-- On the way to a tag stand nodes at every smaller distance. -/
theorem FoundAt.exists_each {n : Nat} (h : y.FoundAt anchors n) :
    ∀ j < n, ∃ (k : Nat) (z : Node), anchors[k]? = some z ∧ z.FoundAt anchors j := by
  induction n generalizing y with
  | zero => exact fun j hj => absurd hj (Nat.not_lt_zero j)
  | succ n ih =>
    obtain ⟨k, z, hz, hfound⟩ := h.exists_target
    intro j hj
    obtain hlt | rfl := Nat.lt_succ_iff_lt_or_eq.1 hj
    · exact ih hfound j hlt
    · exact ⟨k, z, hz, hfound⟩

/-- No anchored node stands twice on the way to a tag, as there would be as many aliases before the
tag at both places. -/
theorem FoundAt.le_length {n : Nat} (h : y.FoundAt anchors n) : n ≤ anchors.length := by
  choose k z hz hfound using h.exists_each
  let target (j : Fin n) : Fin anchors.length :=
    ⟨k j j.2, (List.getElem?_eq_some_iff.1 (hz j j.2)).1⟩
  have htarget : Function.Injective target := by
    intro i j hij
    have hk : k i i.2 = k j j.2 := congrArg Fin.val hij
    have hsame : z i i.2 = z j j.2 := by
      have hi := hz i i.2
      rw [hk, hz j j.2] at hi
      exact (Option.some.inj hi).symm
    exact Fin.ext ((hfound i i.2).unique (hsame ▸ hfound j j.2))
  simpa using Fintype.card_le_of_injective target htarget

/-- The room for every anchored node is enough to find a tag. -/
theorem tag?_eq_some_iff : y.tag? anchors = some t ↔ y.HasTag anchors t := by
  constructor
  · exact hasTag_of_tagWithin
  · intro h
    obtain ⟨room, hroom, hleast⟩ :
        ∃ room, y.tagWithin anchors room = some t ∧ ∀ less < room, y.tagWithin anchors less ≠ some t :=
      ⟨_, Nat.find_spec h.exists_tagWithin, fun _ => Nat.find_min h.exists_tagWithin⟩
    cases room with
    | zero => cases hroom
    | succ n =>
      have hnone : y.tagWithin anchors n = none := by
        rw [Option.eq_none_iff_forall_ne_some]
        intro t' ht'
        have hmore := tagWithin_mono ht' (Nat.le_succ n)
        rw [hroom] at hmore
        cases hmore
        exact hleast n (Nat.lt_succ_self n) ht'
      have hle : n ≤ anchors.length := FoundAt.le_length ⟨⟨t, hroom⟩, hnone⟩
      exact tagWithin_mono hroom (Nat.succ_le_succ hle)

/-- A node has one tag. -/
theorem HasTag.unique (h : y.HasTag anchors t) (h' : y.HasTag anchors t') : t = t' :=
  Option.some.inj ((tag?_eq_some_iff.2 h).symm.trans (tag?_eq_some_iff.2 h'))

/-- The search for a tag fails for the endless aliases only. -/
theorem tag?_eq_none_iff : y.tag? anchors = none ↔ y.Endless anchors := by
  rw [endless_iff_not_hasTag, Option.eq_none_iff_forall_ne_some]
  exact forall_congr' fun t => not_congr tag?_eq_some_iff

end Tags

end Yaml.Node

/-! ## One step of the grammar -/

/-- The forms and their operands: `f.Takes anchors o t kids` says that the form `f` with the operand
`o` is the tree `t`, provided that the nodes `kids` denote the trees directly inside `t`. Names and
lists of operands are not given by aliases; only what is left out is known by its tag alone. -/
inductive Form.Takes (anchors : Anchors) : Form → Node → Tree → List Node → Prop
  | operator {o a b : Node} (op : Op) (l r : Tree) (h : o.IsList [a, b]) :
      Takes anchors (.operator op) o (.binary op l r) [a, b]
  | none {o : Node} (h : o.HasTag anchors Yaml.Tag.null) : Takes anchors .none o .none []
  | seq {o : Node} {items : List Node} (ts : List Tree) (h : o.IsList items) :
      Takes anchors .seq o (.seq ts) items
  | cond {o c a b : Node} (test yes no : Tree) (h : o.IsList [c, a, b]) :
      Takes anchors .cond o (.cond test yes no) [c, a, b]
  | loop {o c b : Node} (test body : Tree) (h : o.IsList [c, b]) :
      Takes anchors .loop o (.loop test body) [c, b]
  | declare {o n e : Node} {x : Text} (value : Tree) (h : o.IsList [n, e]) (hx : n.IsName x) :
      Takes anchors .declare o (.declare x value) [e]
  | assign {o n e : Node} {x : Text} (value : Tree) (h : o.IsList [n, e]) (hx : n.IsName x) :
      Takes anchors .assign o (.assign x value) [e]
  | var {o : Node} {x : Text} (hx : o.IsName x) : Takes anchors .var o (.var x) []
  | print {o : Node} (value : Tree) : Takes anchors .print o (.print value) [o]
  | define {o n ps b : Node} {x : Text} {items : List Node} {xs : List Text} (body : Tree)
      (h : o.IsList [n, ps, b]) (hx : n.IsName x) (hps : ps.IsList items)
      (hxs : List.Forall₂ Node.IsName items xs) :
      Takes anchors .define o (.define x xs body) [b]
  | call {o n : Node} {x : Text} {items : List Node} (args : List Tree) (h : o.IsList (n :: items))
      (hx : n.IsName x) : Takes anchors .call o (.call x args) items

/-- A node spells a tree, provided that the nodes `kids` denote the trees directly inside it: an
integer spells a literal, and an entry whose key is the name of a form spells what the form
takes. -/
inductive Spells (anchors : Anchors) : Node → Tree → List Node → Prop
  | literal {y : Node} {v : Int64} (h : y.IsInteger v) : Spells anchors y (.literal v) []
  | form {y o : Node} {f : Form} {t : Tree} {kids : List Node} (h : y.IsEntry f.name o)
      (ho : f.Takes anchors o t kids) : Spells anchors y t kids

section

variable {anchors : Anchors}

/-- An operand says which nodes inside it are trees, and with the trees there what the tree is. Each
form takes its operand in one way. -/
theorem Form.Takes.unique {f : Form} {o : Node} {t t' : Tree} {kids kids' : List Node}
    (h : f.Takes anchors o t kids) (h' : f.Takes anchors o t' kids') :
    kids = kids' ∧ (t.children = t'.children → t = t') := by
  cases h with
  | operator op l r h =>
    cases h' with
    | operator _ l' r' h' => exact ⟨h.unique h', fun he => by simp_all [Tree.children]⟩
  | none _ =>
    cases h' with
    | none _ => exact ⟨rfl, fun _ => rfl⟩
  | seq ts h =>
    cases h' with
    | seq ts' h' => exact ⟨h.unique h', fun he => by simp_all [Tree.children]⟩
  | cond a b c h =>
    cases h' with
    | cond a' b' c' h' => exact ⟨h.unique h', fun he => by simp_all [Tree.children]⟩
  | loop a b h =>
    cases h' with
    | loop a' b' h' => exact ⟨h.unique h', fun he => by simp_all [Tree.children]⟩
  | declare e h hx =>
    cases h' with
    | declare e' h' hx' =>
      cases h.unique h'
      cases hx.unique hx'
      exact ⟨rfl, fun he => by simp_all [Tree.children]⟩
  | assign e h hx =>
    cases h' with
    | assign e' h' hx' =>
      cases h.unique h'
      cases hx.unique hx'
      exact ⟨rfl, fun he => by simp_all [Tree.children]⟩
  | var hx =>
    cases h' with
    | var hx' => exact ⟨rfl, fun _ => by rw [hx.unique hx']⟩
  | print e =>
    cases h' with
    | print e' => exact ⟨rfl, fun he => by simp_all [Tree.children]⟩
  | define b h hx hps hxs =>
    cases h' with
    | define b' h' hx' hps' hxs' =>
      cases h.unique h'
      cases hx.unique hx'
      cases hps.unique hps'
      cases Node.areNames_unique hxs hxs'
      exact ⟨rfl, fun he => by simp_all [Tree.children]⟩
  | call args h hx =>
    cases h' with
    | call args' h' hx' =>
      cases h.unique h'
      cases hx.unique hx'
      exact ⟨rfl, fun he => by simp_all [Tree.children]⟩

/-- The operand of a form is a list, but for three forms. -/
theorem Form.Takes.isList {f : Form} {o : Node} {t : Tree} {kids : List Node}
    (h : f.Takes anchors o t kids) (hnone : f ≠ .none) (hvar : f ≠ .var) (hprint : f ≠ .print) :
    ∃ items, o.IsList items := by
  cases h with
  | none | var | print => contradiction
  | operator _ _ _ h | seq _ h | cond _ _ _ h | loop _ _ h | declare _ h | assign _ h
  | define _ h | call _ h => exact ⟨_, h⟩

/-- No two forms have the same name. -/
theorem Form.eq_of_name_eq {f g : Form} (h : f.name = g.name) : f = g :=
  Form.name_injective f f.mem_all g g.mem_all h

/-- A form that is found by a name has this name. -/
theorem Form.name_of_ofName? {x : Text} {f : Form} (h : Form.ofName? x = some f) : f.name = x := by
  simpa using List.find?_some h

/-- A node spells at most one tree, up to the trees inside it. -/
theorem Spells.unique {y : Node} {t t' : Tree} {kids kids' : List Node}
    (h : Spells anchors y t kids) (h' : Spells anchors y t' kids') :
    kids = kids' ∧ (t.children = t'.children → t = t') := by
  cases h with
  | literal hv =>
    cases hv with
    | intro hv =>
      cases h' with
      | literal hv' =>
        cases hv' with
        | intro hv' =>
          cases hv.symm.trans hv'
          exact ⟨rfl, fun _ => rfl⟩
      | form he _ => cases he
  | form he ho =>
    cases h' with
    | literal hv' =>
      cases hv'
      cases he
    | form he' ho' =>
      obtain ⟨hname, rfl⟩ := he.unique he'
      cases Form.eq_of_name_eq hname
      exact ho.unique ho'

/-- An alias spells no tree by itself. -/
theorem Spells.not_isAlias {y : Node} {t : Tree} {kids : List Node} {k : Nat}
    (h : Spells anchors y t kids) : ¬ y.IsAlias k := by
  intro hk
  cases hk
  cases h with
  | literal hv => cases hv
  | form he _ => cases he

end

/-! ## Derivations -/

mutual

/-- How a node denotes a tree: an alias denotes what the node it refers to denotes, and any other
node denotes the tree that it spells with what its parts denote. -/
inductive Derivation (anchors : Anchors) : Node → Tree → Type
  | expand {y z : Node} {t : Tree} {k : Nat} (hy : y.IsAlias k) (hz : anchors[k]? = some z)
      (d : Derivation anchors z t) : Derivation anchors y t
  | form {y : Node} {t : Tree} {kids : List Node} (h : Spells anchors y t kids)
      (ds : Derivations anchors kids t.children) : Derivation anchors y t

/-- How nodes denote trees, one by one. -/
inductive Derivations (anchors : Anchors) : List Node → List Tree → Type
  | nil : Derivations anchors [] []
  | cons {y : Node} {t : Tree} {ys : List Node} {ts : List Tree} (d : Derivation anchors y t)
      (ds : Derivations anchors ys ts) : Derivations anchors (y :: ys) (t :: ts)

end

section

variable {anchors : Anchors}

mutual

/-- The number of nodes of a derivation that lie under an alias, when `under` says whether all of it
does. Every node in the place of a tree counts, aliases included. -/
def Derivation.visits (under : Bool) : {y : Node} → {t : Tree} → Derivation anchors y t → Nat
  | _, _, .expand _ _ d => under.toNat + d.visits true
  | _, _, .form _ ds => under.toNat + ds.visits under

/-- The numbers for derivations, added up. -/
def Derivations.visits (under : Bool) :
    {ys : List Node} → {ts : List Tree} → Derivations anchors ys ts → Nat
  | _, _, .nil => 0
  | _, _, .cons d ds => d.visits under + ds.visits under

end

/-- The number of nodes in the places of trees that lie under an alias. -/
def Derivation.underAliases {y : Node} {t : Tree} (d : Derivation anchors y t) : Nat :=
  d.visits false

mutual

/-- A node denotes at most one tree, with as many nodes under aliases in all derivations. -/
theorem Derivation.unique {y : Node} {t t' : Tree} : (d : Derivation anchors y t) →
    (d' : Derivation anchors y t') → t = t' ∧ ∀ under, d.visits under = d'.visits under
  | .expand hy hz d, .expand hy' hz' d' => by
    cases hy.unique hy'
    cases hz.symm.trans hz'
    obtain ⟨ht, hvisits⟩ := d.unique d'
    exact ⟨ht, fun under => by simp only [Derivation.visits, hvisits]⟩
  | .expand hy _ _, .form h _ => absurd hy h.not_isAlias
  | .form h _, .expand hy _ _ => absurd hy h.not_isAlias
  | .form h ds, .form h' ds' => by
    obtain ⟨rfl, ht⟩ := h.unique h'
    obtain ⟨hchildren, hvisits⟩ := ds.unique ds'
    exact ⟨ht hchildren, fun under => by simp only [Derivation.visits, hvisits]⟩

/-- Nodes denote trees in at most one way. -/
theorem Derivations.unique {ys : List Node} {ts ts' : List Tree} : (ds : Derivations anchors ys ts) →
    (ds' : Derivations anchors ys ts') → ts = ts' ∧ ∀ under, ds.visits under = ds'.visits under
  | .nil, .nil => ⟨rfl, fun _ => rfl⟩
  | .cons d ds, .cons d' ds' => by
    obtain ⟨rfl, hd⟩ := d.unique d'
    obtain ⟨rfl, hds⟩ := ds.unique ds'
    exact ⟨rfl, fun under => by simp only [Derivations.visits, hd, hds]⟩

end

/-! ## No derivation is inside itself -/

mutual

/-- A derivation avoids the aliases that are being followed: neither one of them nor, inside an
alias, that alias again is met. -/
def Derivation.Avoids (followed : List Nat) : {y : Node} → {t : Tree} → Derivation anchors y t → Prop
  | _, _, .expand (k := k) _ _ d => k ∉ followed ∧ d.Avoids (k :: followed)
  | _, _, .form _ ds => ds.Avoids followed

/-- Derivations avoid the aliases that are being followed. -/
def Derivations.Avoids (followed : List Nat) :
    {ys : List Node} → {ts : List Tree} → Derivations anchors ys ts → Prop
  | _, _, .nil => True
  | _, _, .cons d ds => d.Avoids followed ∧ ds.Avoids followed

end

/-- All that the anchored nodes with the given numbers denote takes derivations of at least a
size. -/
def AllTake (anchors : Anchors) (followed : List Nat) (size : Nat) : Prop :=
  ∀ k ∈ followed, ∀ (z : Node) (t : Tree) (e : Derivation anchors z t), anchors[k]? = some z →
    size ≤ e.visits true

/-- What takes many visits takes fewer. -/
theorem AllTake.mono {followed : List Nat} {m n : Nat} (h : AllTake anchors followed n)
    (hmn : m ≤ n) : AllTake anchors followed m :=
  fun k hk z t e hz => Nat.le_trans hmn (h k hk z t e hz)

mutual

/-- A derivation that is not greater than what is being followed avoids all of it. -/
theorem Derivation.avoids_of_allTake {y : Node} {t : Tree} {followed : List Nat} :
    (d : Derivation anchors y t) → AllTake anchors followed (d.visits true) → d.Avoids followed
  | .expand (k := k) (z := z) hy hz d, h => by
    have hsize : (Derivation.expand hy hz d).visits true = 1 + d.visits true := rfl
    rw [hsize] at h
    constructor
    · -- what an alias stands for is smaller than the alias, so it cannot be what is followed
      intro hk
      have := h k hk z t d hz
      omega
    · refine d.avoids_of_allTake ?_
      intro j hj z' t' e hz'
      cases hj with
      | head =>
        cases hz.symm.trans hz'
        exact Nat.le_of_eq ((d.unique e).2 true)
      | tail _ hj => exact h.mono (Nat.le_add_left _ _) j hj z' t' e hz'
  | .form hs ds, h => ds.avoids_of_allTake (h.mono (Nat.le_add_left _ _))

/-- Derivations that are not greater than what is being followed avoid all of it. -/
theorem Derivations.avoids_of_allTake {ys : List Node} {ts : List Tree} {followed : List Nat} :
    (ds : Derivations anchors ys ts) → AllTake anchors followed (ds.visits true) →
      ds.Avoids followed
  | .nil, _ => trivial
  | .cons d ds, h =>
    ⟨d.avoids_of_allTake (h.mono (Nat.le_add_right _ _)),
      ds.avoids_of_allTake (h.mono (Nat.le_add_left _ _))⟩

end

/-- A derivation never meets an alias again inside the node that the alias refers to. -/
theorem Derivation.avoids {y : Node} {t : Tree} (d : Derivation anchors y t) : d.Avoids [] :=
  d.avoids_of_allTake fun _ hk => absurd hk List.not_mem_nil

end

end TreeLang
