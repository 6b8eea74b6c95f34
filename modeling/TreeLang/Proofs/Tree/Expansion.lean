import TreeLang.Proofs.Tree.Anchoring

/-!
# Aliases expanded

The decoder of a document is exact (`Decode.exact_document`). Inside a node this is put together
from the forms; at an alias it is carried from the target to the alias, while one more alias is
followed. The aliases that are followed are different from each other, so there is never less room
than there are anchored nodes left to follow.

Hence a document is decoded exactly when it has a derivation in the grammar with no more nodes under
aliases than the limit allows; in every other case a fault is reported at one of its nodes
(`Tree.ofDocument_iff_derivation`).
-/

set_option autoImplicit false

namespace TreeLang

open Yaml (Node Anchors Place Document DocumentStream)

namespace Decode

variable {α : Type} {P : Fault → Prop} {followed : List Nat}

/-! ## Nodes -/

section Nodes

variable {anchors : Anchors} {follow : Place → Nat → Decode Tree}

/-- An entry denotes what the form that its key names takes. -/
theorem spellingDenotes_entry {p k : Place} {tag ktag x : Text} {flow : Bool} {o : Node} {t : Tree}
    {n : Nat} :
    SpellingDenotes anchors followed (.mapping p tag flow [(.scalar k ktag x, o)]) t n ↔
      ∃ f, f.name = x ∧ FormDenotes anchors followed f o t n := by
  constructor
  · rintro ⟨kids, hs, hds⟩
    cases hs with
    | literal hv => cases hv
    | form he ho =>
      generalize hx : Form.name _ = x at he
      cases he
      exact ⟨_, hx, kids, ho, hds⟩
  · rintro ⟨f, rfl, kids, ho, hds⟩
    exact ⟨kids, .form .intro ho, hds⟩

/-- What a node in the place of a tree needs for its decoder to be exact: faults at it may be
reported, if it is an alias, it is followed exactly, and the fault that an operand of it has no tag
may be reported where the operand has none. -/
structure Met (P : Fault → Prop) (anchors : Anchors) (followed : List Nat)
    (follow : Place → Nat → Decode Tree) (z : Node) : Prop where
  blame : Admits P z.place
  target : ∀ p name k, z = .alias p name k →
    Exact P followed (follow p k) (TargetDenotes anchors followed k)
  operand : ∀ o, z.IsEntry Form.none.name o → o.Endless anchors → P ⟨o.place, .endlessAlias⟩

/-- An alias is settled by its target. -/
theorem settled_alias {p : Place} {name : Text} {k : Nat}
    (h : Met P anchors followed follow (.alias p name k)) :
    Settled P anchors followed follow (.alias p name k) := by
  unfold Settled
  rw [node]
  exact ((h.target p name k rfl).visited (h.blame _ rfl)).congr fun t n => denotes_alias.symm

/-- A scalar is settled by itself. -/
theorem settled_scalar {p : Place} {tag v : Text}
    (h : Met P anchors followed follow (.scalar p tag v)) :
    Settled P anchors followed follow (.scalar p tag v) := by
  unfold Settled
  rw [node]
  exact ((exact_literal h.blame).visited (h.blame _ rfl)).congr
    fun t n => (denotes_of_not_isAlias (by rintro _ ⟨⟩)).symm

/-- A node that spells nothing and is refused. -/
theorem settled_refused {y : Node} {p : Place} {c : Misfit} (h : Met P anchors followed follow y)
    (hnode : node (Node.tag? anchors) follow y = do visit y.place; fail p c) (hc : P ⟨p, c⟩)
    (hy : ∀ k, ¬ y.IsAlias k) (hs : ∀ t kids, ¬ Spells anchors y t kids) :
    Settled P anchors followed follow y := by
  unfold Settled
  rw [hnode]
  refine (Exact.visited (h.blame _ rfl) (.refuse hc ?_)).congr
    fun t n => (denotes_of_not_isAlias hy).symm
  rintro t n ⟨kids, h, _⟩
  exact hs t kids h

/-- A list spells no tree. -/
theorem settled_sequence {p : Place} {tag : Text} {flow : Bool} {items : List Node}
    (h : Met P anchors followed follow (.sequence p tag flow items)) :
    Settled P anchors followed follow (.sequence p tag flow items) := by
  refine settled_refused h rfl (h.blame (.notTree tag) rfl) (by rintro _ ⟨⟩) ?_
  intro t kids hs
  cases hs with
  | literal hv => cases hv
  | form he _ => cases he

/-- The decoder of an entry, by the form that its key names. -/
theorem node_entry {tag? : Node → Option Text} (p k : Place) (tag ktag : Text) (flow : Bool)
    (f : Form) (o : Node) :
    node tag? follow (.mapping p tag flow [(.scalar k ktag f.name, o)]) = (do
      visit p
      match f with
      | .none => noOperand (tag? o) o
      | .var => return .var (← name o)
      | .print => return .print (← node tag? follow o)
      | f =>
        match o with
        | .sequence q _ _ items => operands f q (suspended tag? follow items)
        | n => fail n.place (if f = .call then .noFunction else .notList f.name)) := by
  rw [node, Form.ofName?_name]
  cases f <;> rfl

/-- An entry is settled if its operand is: its key names a form or none, and the operands are those
that the form takes. -/
theorem settled_entry {p k : Place} {tag ktag x : Text} {flow : Bool} {o : Node}
    (h : ∀ z ∈ (Node.mapping p tag flow [(.scalar k ktag x, o)]).parts,
      Met P anchors followed follow z)
    (ho : ∀ z ∈ o.parts, Settled P anchors followed follow z) :
    Settled P anchors followed follow (.mapping p tag flow [(.scalar k ktag x, o)]) := by
  have hself := h _ (Node.mem_parts _)
  have hblame : ∀ z ∈ o.parts, Admits P z.place := fun z hz =>
    (h z (by simp [Node.parts, Node.partsOfEntries, hz])).blame
  have hplace := hblame o o.mem_parts
  have hdenotes : ∀ t n, (∃ j, SpellingDenotes anchors followed
      (.mapping p tag flow [(.scalar k ktag x, o)]) t j ∧ n = (counted followed).toNat + j) ↔
        Denotes anchors followed (.mapping p tag flow [(.scalar k ktag x, o)]) t n :=
    fun t n => (denotes_of_not_isAlias (by rintro _ ⟨⟩)).symm
  cases hx : Form.ofName? x with
  | none =>
    have hkey := h (.scalar k ktag x) (by simp [Node.parts, Node.partsOfEntries])
    unfold Settled
    rw [node, hx]
    refine (Exact.visited (hself.blame _ rfl) (.refuse (hkey.blame (.unknownKind x) rfl) ?_)).congr
      hdenotes
    intro t n ht
    obtain ⟨f, rfl, _⟩ := spellingDenotes_entry.1 ht
    rw [Form.ofName?_name] at hx
    cases hx
  | some f =>
    obtain rfl := Form.name_of_ofName? hx
    -- the key names one form only
    have hform : ∀ t n, FormDenotes anchors followed f o t n ↔
        SpellingDenotes anchors followed (.mapping p tag flow [(.scalar k ktag f.name, o)]) t n := by
      intro t n
      rw [spellingDenotes_entry]
      constructor
      · intro ht
        exact ⟨f, rfl, ht⟩
      · rintro ⟨g, hg, ht⟩
        exact Form.eq_of_name_eq hg ▸ ht
    unfold Settled
    rw [node_entry]
    refine (Exact.visited (hself.blame _ rfl) (Exact.congr ?_ hform)).congr hdenotes
    cases f with
    | none => exact exact_noOperand hplace (hself.operand o .intro)
    | var => exact exact_var hplace
    | print => exact exact_print (ho o o.mem_parts)
    | operator | seq | cond | loop | declare | assign | define | call =>
      exact exact_list (by simp) (by simp) (by simp) hblame ho

/-- A mapping that is not an entry with a scalar key is refused. -/
theorem settled_notEntry {p q : Place} {tag : Text} {flow : Bool} {entries : List (Node × Node)}
    {c : Misfit} (h : Met P anchors followed follow (.mapping p tag flow entries)) (hc : P ⟨q, c⟩)
    (hnode : node (Node.tag? anchors) follow (.mapping p tag flow entries) = do visit p; fail q c)
    (hentries : ∀ k ktag x o, entries ≠ [(.scalar k ktag x, o)]) :
    Settled P anchors followed follow (.mapping p tag flow entries) := by
  refine settled_refused h hnode hc (by rintro _ ⟨⟩) ?_
  intro t kids hs
  cases hs with
  | literal hv => cases hv
  | form he _ =>
    generalize Form.name _ = x at he
    cases he
    exact hentries _ _ _ _ rfl

/-- A mapping is settled if its values are; only one with one entry spells a tree. -/
theorem settled_mapping {p : Place} {tag : Text} {flow : Bool} {entries : List (Node × Node)}
    (h : ∀ z ∈ (Node.mapping p tag flow entries).parts, Met P anchors followed follow z)
    (he : ∀ z ∈ Node.partsOfEntries entries, Settled P anchors followed follow z) :
    Settled P anchors followed follow (.mapping p tag flow entries) := by
  have hself := h _ (Node.mem_parts _)
  match entries, h, he with
  | [(key, o)], h, he =>
    have hkey := h key (by simp [Node.parts, Node.partsOfEntries, key.mem_parts])
    cases key with
    | scalar k ktag x => exact settled_entry h fun z hz => he z (by simp [Node.partsOfEntries, hz])
    | sequence | mapping | «alias» =>
      exact settled_notEntry hself (hkey.blame .kindNotScalar rfl) rfl (by rintro _ _ _ _ ⟨⟩)
  | [], _, _ =>
    exact settled_notEntry hself (hself.blame (.notOneKind 0) rfl) rfl (by rintro _ _ _ _ ⟨⟩)
  | e :: e' :: es, _, _ =>
    exact settled_notEntry hself (hself.blame (.notOneKind (e :: e' :: es).length) rfl)
      (by simp [node, Node.place]) (by rintro _ _ _ _ ⟨⟩)

mutual

/-- The decoder of a node is exact, and so is the decoder of everything inside it, if aliases are
followed exactly. -/
theorem settled_parts : (y : Node) → (∀ z ∈ y.parts, Met P anchors followed follow z) →
    ∀ z ∈ y.parts, Settled P anchors followed follow z
  | .scalar p tag v, h => by
    intro z hz
    cases List.mem_singleton.1 hz
    exact settled_scalar (h _ hz)
  | .alias p name k, h => by
    intro z hz
    cases List.mem_singleton.1 hz
    exact settled_alias (h _ hz)
  | .sequence p tag flow items, h => by
    intro z hz
    have hitems := settled_partsOfAll items fun z hz => h z (List.mem_cons_of_mem _ hz)
    cases List.mem_cons.1 hz with
    | inl hz =>
      subst hz
      exact settled_sequence (h _ (Node.mem_parts _))
    | inr hz => exact hitems z hz
  | .mapping p tag flow entries, h => by
    intro z hz
    have hentries := settled_partsOfEntries entries fun z hz => h z (List.mem_cons_of_mem _ hz)
    cases List.mem_cons.1 hz with
    | inl hz =>
      subst hz
      exact settled_mapping h hentries
    | inr hz => exact hentries z hz

/-- The decoders of nodes in a list are exact. -/
theorem settled_partsOfAll : (ys : List Node) →
    (∀ z ∈ Node.partsOfAll ys, Met P anchors followed follow z) →
      ∀ z ∈ Node.partsOfAll ys, Settled P anchors followed follow z
  | [], _ => by
    intro z hz
    cases hz
  | y :: ys, h => by
    intro z hz
    rw [Node.partsOfAll] at h hz
    cases List.mem_append.1 hz with
    | inl hz => exact settled_parts y (fun w hw => h w (List.mem_append_left _ hw)) z hz
    | inr hz => exact settled_partsOfAll ys (fun w hw => h w (List.mem_append_right _ hw)) z hz

/-- The decoders of nodes in the entries of a mapping are exact. -/
theorem settled_partsOfEntries : (es : List (Node × Node)) →
    (∀ z ∈ Node.partsOfEntries es, Met P anchors followed follow z) →
      ∀ z ∈ Node.partsOfEntries es, Settled P anchors followed follow z
  | [], _ => by
    intro z hz
    cases hz
  | (k, y) :: es, h => by
    intro z hz
    simp only [Node.partsOfEntries, List.mem_append] at h hz
    rcases hz with hz | hz | hz
    · exact settled_parts k (fun w hw => h w (Or.inl hw)) z hz
    · exact settled_parts y (fun w hw => h w (Or.inr (Or.inl hw))) z hz
    · exact settled_partsOfEntries es (fun w hw => h w (Or.inr (Or.inr hw))) z hz

end

end Nodes

/-! ## Aliases -/

/-- While an alias is followed, one more is followed, and afterwards the same as before. -/
theorem Exact.following {x : Decode α} {R : α → Nat → Prop} {k : Nat}
    (h : Exact P (k :: followed) x R) : Exact P followed (following k x) R where
  unique := h.unique
  ends := by
    intro v hv
    unfold Decode.following
    have hends := h.ends v hv
    dsimp only
    generalize x ⟨k :: followed, v⟩ = r at hends
    cases hends with
    | ok hR hn =>
      dsimp only
      rw [List.erase_cons_head]
      exact .ok hR hn
    | error hP hR =>
      dsimp only
      rw [List.erase_cons_head]
      exact .error hP hR

/-- Room for all aliases that can still be followed: those that are followed are different anchored
nodes, and there are not more others than room. -/
structure Roomy (anchors : Anchors) (room : Nat) (followed : List Nat) : Prop where
  nodup : followed.Nodup
  inside : ∀ k ∈ followed, k < anchors.length
  enough : anchors.length ≤ room + followed.length

/-- Following one alias more takes one of the room. -/
theorem Roomy.cons {anchors : Anchors} {room k : Nat} {z : Node}
    (h : Roomy anchors (room + 1) followed) (hk : k ∉ followed) (hz : anchors[k]? = some z) :
    Roomy anchors room (k :: followed) where
  nodup := List.nodup_cons.2 ⟨hk, h.nodup⟩
  inside := by
    intro j hj
    cases hj with
    | head => exact (List.getElem?_eq_some_iff.1 hz).1
    | tail _ hj => exact h.inside j hj
  enough := by
    have := h.enough
    rw [List.length_cons]
    omega

/-- Without room, all anchored nodes are being followed. -/
theorem Roomy.not_some_of_zero {anchors : Anchors} {k : Nat} (h : Roomy anchors 0 followed)
    (hk : k ∉ followed) : anchors[k]? = none := by
  rw [List.getElem?_eq_none_iff]
  by_contra hlt
  -- one more would be more different numbers than there are below the number of anchors
  have hsub : k :: followed ⊆ List.range anchors.length := by
    intro j hj
    rw [List.mem_range]
    cases hj with
    | head => omega
    | tail _ hj => exact h.inside j hj
  have hlen := ((List.nodup_cons.2 ⟨hk, h.nodup⟩).subperm hsub).length_le
  have := h.enough
  rw [List.length_cons, List.length_range] at hlen
  omega

section Targets

variable {anchors : Anchors} {room k v : Nat} {p : Place}

/-- An alias that is being followed is refused. -/
theorem target_of_mem (hk : k ∈ followed) :
    target anchors room p k ⟨followed, v⟩ = fail p .recursiveAlias ⟨followed, v⟩ := by
  unfold target
  show (if followed.contains k then _ else _ : Decode Tree) ⟨followed, v⟩ = _
  rw [if_pos (List.contains_iff_mem.2 hk)]

/-- An alias of no node is refused. -/
theorem target_of_none (hk : k ∉ followed) (hz : anchors[k]? = none) :
    target anchors room p k ⟨followed, v⟩ = fail p .danglingAlias ⟨followed, v⟩ := by
  unfold target
  show (if followed.contains k then _ else _ : Decode Tree) ⟨followed, v⟩ = _
  rw [if_neg (mt List.contains_iff_mem.1 hk), hz]
  cases room <;> rfl

/-- Any other alias is decoded as the node it names, with one less room. -/
theorem target_of_some {z : Node} (hk : k ∉ followed) (hz : anchors[k]? = some z) :
    target anchors (room + 1) p k ⟨followed, v⟩ =
      following k (node (Node.tag? anchors) (target anchors room) z) ⟨followed, v⟩ := by
  unfold target
  show (if followed.contains k then _ else _ : Decode Tree) ⟨followed, v⟩ = _
  rw [if_neg (mt List.contains_iff_mem.1 hk), hz]

end Targets

end Decode

/-- Some operand of the form without operand is an alias from which aliases lead on without end, so
that the form never comes to know its tag. -/
def Yaml.Document.Endless (d : Document) : Prop :=
  ∃ y ∈ d.nodes, ∃ o, y.IsEntry Form.none.name o ∧ o.Endless d.anchors

/-- The faults that a document may be blamed for: they are at its nodes, only an alias that has no
target is said to have none, and only an endless document is said to be endless. -/
def Yaml.Document.Blames (d : Document) (f : Fault) : Prop :=
  ∃ z ∈ d.nodes, z.place = f.place ∧
    (f.cause = .danglingAlias → ∃ k, z.IsAlias k ∧ d.anchors[k]? = none) ∧
    (f.cause = .endlessAlias → d.Endless)

namespace Decode

variable {d : Document}

/-- The decoder of a node of a document is exact if aliases of the document are followed exactly. -/
theorem settled_of_mem_nodes {followed : List Nat} {follow : Place → Nat → Decode Tree} {y : Node}
    (hy : y.parts ⊆ d.nodes)
    (h : ∀ p name k, .alias p name k ∈ d.nodes →
      Exact d.Blames followed (follow p k) (TargetDenotes d.anchors followed k)) :
    Settled d.Blames d.anchors followed follow y := by
  refine settled_parts y (fun z hz => ⟨?_, ?_, ?_⟩) y y.mem_parts
  · intro c hc
    refine ⟨z, hy hz, rfl, ?_, ?_⟩
    · rintro rfl
      cases hc
    · rintro rfl
      cases hc
  · rintro p name k rfl
    exact h p name k (hy hz)
  · intro o ho hend
    have hmem := Document.parts_subset_of_mem (hy hz) (ho.parts_subset o.mem_parts)
    exact ⟨o, hmem, rfl, nofun, fun _ => ⟨z, hy hz, o, ho, hend⟩⟩

section Aliases

variable {followed : List Nat} {room k : Nat} {p : Place} {name : Text}

/-- An alias that is met again inside its target has no answer. -/
theorem exact_target_of_mem (hmem : .alias p name k ∈ d.nodes) (hk : k ∈ followed) :
    Exact d.Blames followed (target d.anchors room p k) (TargetDenotes d.anchors followed k) := by
  refine Exact.of_eq (.refuse ?_ ?_) fun v => target_of_mem hk
  · exact ⟨_, hmem, rfl, nofun, nofun⟩
  · rintro t n ⟨hk', _⟩
    exact hk' hk

/-- An alias without a target has no answer. -/
theorem exact_target_of_none (hmem : .alias p name k ∈ d.nodes) (hk : k ∉ followed)
    (hz : d.anchors[k]? = none) :
    Exact d.Blames followed (target d.anchors room p k) (TargetDenotes d.anchors followed k) := by
  refine Exact.of_eq (.refuse ?_ ?_) fun v => target_of_none hk hz
  · exact ⟨_, hmem, rfl, fun _ => ⟨k, .intro, hz⟩, nofun⟩
  · rintro t n ⟨_, z, hz', _⟩
    cases hz.symm.trans hz'

/-- An alias is followed exactly if its target is decoded exactly. -/
theorem exact_target_of_some {z : Node} (hk : k ∉ followed) (hz : d.anchors[k]? = some z)
    (h : Settled d.Blames d.anchors (k :: followed) (target d.anchors room) z) :
    Exact d.Blames followed (target d.anchors (room + 1) p k)
      (TargetDenotes d.anchors followed k) := by
  refine Exact.of_eq (h.following.congr fun t n => ?_) fun v => target_of_some hk hz
  constructor
  · intro ht
    exact ⟨hk, z, hz, ht⟩
  · rintro ⟨_, z', hz', ht⟩
    cases hz.symm.trans hz'
    exact ht

end Aliases

/-- An alias is followed exactly, as long as there is room for all that can be followed inside
it. -/
theorem exact_target {room : Nat} : ∀ {followed : List Nat}, Roomy d.anchors room followed →
    ∀ (p : Place) (name : Text) (k : Nat), .alias p name k ∈ d.nodes →
      Exact d.Blames followed (target d.anchors room p k) (TargetDenotes d.anchors followed k) := by
  induction room with
  | zero =>
    intro followed hroom p name k hmem
    by_cases hk : k ∈ followed
    · exact exact_target_of_mem hmem hk
    · exact exact_target_of_none hmem hk (hroom.not_some_of_zero hk)
  | succ room ih =>
    intro followed hroom p name k hmem
    by_cases hk : k ∈ followed
    · exact exact_target_of_mem hmem hk
    · cases hz : d.anchors[k]? with
      | none => exact exact_target_of_none hmem hk hz
      | some z =>
        apply exact_target_of_some hk hz
        exact settled_of_mem_nodes (Document.parts_subset_nodes hz) (ih (hroom.cons hk hz))

/-- The decoder of a document is exact. -/
theorem exact_document (d : Document) :
    Exact d.Blames [] (document d) (Denotes d.anchors [] d.root) := by
  refine settled_of_mem_nodes (List.subset_append_left _ _) (exact_target ?_)
  exact ⟨List.nodup_nil, nofun, Nat.le_refl _⟩

end Decode

/-! ## Documents -/

/-- A document has the tree of a derivation within the limit, or a fault and no such derivation. -/
theorem Tree.ofDocument_cases (d : Document) :
    (∃ (t : Tree) (D : Derivation d.anchors d.root t),
        Tree.ofDocument d = .ok t ∧ D.underAliases ≤ aliasLimit) ∨
      ∃ f, Tree.ofDocument d = .error f ∧ d.Blames f ∧
        ∀ (t : Tree) (D : Derivation d.anchors d.root t), aliasLimit < D.underAliases := by
  have hends := (Decode.exact_document d).ends 0 (Nat.zero_le _)
  unfold Tree.ofDocument
  generalize Decode.document d ⟨[], 0⟩ = r at hends
  cases hends with
  | ok ht hn =>
    obtain ⟨D, _, rfl⟩ := ht
    rw [Nat.zero_add] at hn
    exact Or.inl ⟨_, D, rfl, hn⟩
  | error hf hno =>
    refine Or.inr ⟨_, rfl, hf, fun t D => ?_⟩
    have hlt := hno t _ ⟨D, D.avoids, rfl⟩
    rwa [Nat.zero_add] at hlt

/-- An entry of a key in flow style. -/
def entryAt (place key : Place) (kind : Text) (operand : Node) : Node :=
  .mapping place Yaml.Tag.map true [(.scalar key Yaml.Tag.str kind, operand)]

/-- The node `&a {print: *a}`, which would print itself. -/
def endlessNode : Node :=
  entryAt ⟨1, 1⟩ ⟨1, 5⟩ (utf8 "print") (.alias ⟨1, 12⟩ (utf8 "a") 0)

/-- The document of the endless node. -/
def endlessPrint : Document := ⟨endlessNode, [endlessNode]⟩

/-- The node `{none: *a}`. -/
def noneOfAlias : Node :=
  entryAt ⟨1, 1⟩ ⟨1, 2⟩ (utf8 "none") (.alias ⟨1, 8⟩ (utf8 "a") 0)

/-- A document whose operand is an alias of an alias of itself. -/
def endlessNone : Document := ⟨noneOfAlias, [.alias ⟨2, 1⟩ (utf8 "a") 0]⟩

example : Tree.ofDocument endlessNone = .error ⟨⟨1, 8⟩, .endlessAlias⟩ := by rfl

end TreeLang
