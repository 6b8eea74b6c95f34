import TreeLang.Proofs.Tree.Grammar

/-!
# What decoders accept

`Decode.Exact P followed x R` says all there is to say of a decoder `x` while the aliases `followed`
are being followed. The relation `R a n` gives the answers that the grammar allows, each with the
number of nodes visited under aliases. The decoder gives such an answer and counts so many nodes, or
it fails with a fault of which `P` holds, and then no answer is within the limit. In both cases the
same aliases are being followed after the run as before.

The answers of a relation are unique. So one statement carries soundness and completeness through a
sequence of decoders at once: when a later decoder fails, there is no other answer of the earlier
ones to go back to.
-/

set_option autoImplicit false

namespace TreeLang

open Yaml (Node Anchors Place Document)

/-! ## The nodes of a document -/

namespace Yaml

mutual

/-- The nodes that are reached from a node without following aliases, itself first. -/
def Node.parts : Node → List Node
  | .scalar p tag v => [.scalar p tag v]
  | .alias p name k => [.alias p name k]
  | .sequence p tag flow items => .sequence p tag flow items :: Node.partsOfAll items
  | .mapping p tag flow entries => .mapping p tag flow entries :: Node.partsOfEntries entries

/-- The nodes that are reached from nodes. -/
def Node.partsOfAll : List Node → List Node
  | [] => []
  | n :: ns => n.parts ++ Node.partsOfAll ns

/-- The nodes that are reached from the entries of a mapping. -/
def Node.partsOfEntries : List (Node × Node) → List Node
  | [] => []
  | (k, n) :: es => k.parts ++ (n.parts ++ Node.partsOfEntries es)

end

/-- The nodes of a document and of what its aliases may refer to. -/
def Document.nodes (d : Document) : List Node := d.root.parts ++ d.anchors.flatMap Node.parts

/-- Every alias of a document has a target. -/
def Document.Closed (d : Document) : Prop :=
  ∀ z ∈ d.nodes, ∀ k, z.IsAlias k → k < d.anchors.length

/-- A node is one of its parts. -/
theorem Node.mem_parts (n : Node) : n ∈ n.parts := by
  cases n <;> simp [Node.parts]

theorem Node.parts_subset_partsOfAll {n : Node} {ns : List Node} (h : n ∈ ns) :
    n.parts ⊆ Node.partsOfAll ns := by
  induction ns with
  | nil => cases h
  | cons m ns ih =>
    intro z hz
    rw [Node.partsOfAll, List.mem_append]
    cases h with
    | head => exact Or.inl hz
    | tail _ h => exact Or.inr (ih h hz)

/-- The parts of an operand are parts of its entry. -/
theorem Node.IsEntry.parts_subset {y o : Node} {x : Text} (h : y.IsEntry x o) :
    o.parts ⊆ y.parts := by
  cases h
  intro z hz
  simp [Node.parts, Node.partsOfEntries, hz]

mutual

/-- The parts of a part of a node are parts of it. -/
theorem Node.parts_subset_of_mem {z : Node} : (y : Node) → z ∈ y.parts → z.parts ⊆ y.parts
  | .scalar .., h | .alias .., h => by
    cases List.mem_singleton.1 h
    exact List.Subset.refl _
  | .sequence p tag flow items, h => by
    rcases List.mem_cons.1 h with rfl | h
    · exact List.Subset.refl _
    · exact List.subset_cons_of_subset _ (Node.parts_subset_of_mem_partsOfAll items h)
  | .mapping p tag flow entries, h => by
    rcases List.mem_cons.1 h with rfl | h
    · exact List.Subset.refl _
    · exact List.subset_cons_of_subset _ (Node.parts_subset_of_mem_partsOfEntries entries h)

/-- Parts of parts are parts. -/
theorem Node.parts_subset_of_mem_partsOfAll {z : Node} : (ys : List Node) →
    z ∈ Node.partsOfAll ys → z.parts ⊆ Node.partsOfAll ys
  | y :: ys, h => by
    rw [Node.partsOfAll] at h ⊢
    rcases List.mem_append.1 h with h | h
    · exact List.subset_append_of_subset_left _ (Node.parts_subset_of_mem y h)
    · exact List.subset_append_of_subset_right _ (Node.parts_subset_of_mem_partsOfAll ys h)

theorem Node.parts_subset_of_mem_partsOfEntries {z : Node} : (es : List (Node × Node)) →
    z ∈ Node.partsOfEntries es → z.parts ⊆ Node.partsOfEntries es
  | (k, y) :: es, h => by
    rw [Node.partsOfEntries] at h ⊢
    rcases List.mem_append.1 h with h | h
    · exact List.subset_append_of_subset_left _ (Node.parts_subset_of_mem k h)
    · refine List.subset_append_of_subset_right _ ?_
      rcases List.mem_append.1 h with h | h
      · exact List.subset_append_of_subset_left _ (Node.parts_subset_of_mem y h)
      · exact List.subset_append_of_subset_right _
          (Node.parts_subset_of_mem_partsOfEntries es h)

end

/-- The parts of a node of a document are nodes of it. -/
theorem Document.parts_subset_of_mem {d : Document} {y : Node} (h : y ∈ d.nodes) :
    y.parts ⊆ d.nodes := by
  rcases List.mem_append.1 h with h | h
  · exact List.subset_append_of_subset_left _ (Node.parts_subset_of_mem _ h)
  · obtain ⟨z, hz, hy⟩ := List.mem_flatMap.1 h
    refine List.subset_append_of_subset_right _ fun w hw => List.mem_flatMap.2 ⟨z, hz, ?_⟩
    exact Node.parts_subset_of_mem z hy hw

/-- What an alias names is part of the document. -/
theorem Document.parts_subset_nodes {d : Document} {n : Node} {k : Nat}
    (h : d.anchors[k]? = some n) : n.parts ⊆ d.nodes := by
  intro z hz
  apply List.mem_append_right
  exact List.mem_flatMap.2 ⟨n, List.mem_of_getElem? h, hz⟩

end Yaml

/-- Whether a misfit says of an alias that it leads to no node, or to no node with a tag. -/
def Misfit.isLost : Misfit → Bool
  | .danglingAlias | .endlessAlias => true
  | _ => false

namespace Decode

variable {α β : Type} {P : Fault → Prop} {followed : List Nat}

/-- Faults at a place are admitted, whatever they are but that an alias there is lost. -/
abbrev Admits (P : Fault → Prop) (p : Place) : Prop := ∀ c : Misfit, c.isLost = false → P ⟨p, c⟩

/-! ## Exact decoders -/

/-- How a run ends that started with so many nodes visited under aliases. -/
inductive Ends (P : Fault → Prop) (followed : List Nat) (visited : Nat) (R : α → Nat → Prop) :
    EStateM.Result Fault Expansion α → Prop
  | ok {a : α} {n : Nat} (h : R a n) (hn : visited + n ≤ aliasLimit) :
      Ends P followed visited R (.ok a ⟨followed, visited + n⟩)
  | error {f : Fault} {v : Nat} (hf : P f) (h : ∀ a n, R a n → aliasLimit < visited + n) :
      Ends P followed visited R (.error f ⟨followed, v⟩)

/-- A decoder gives the answers of a relation that are within the limit, and no others. -/
structure Exact (P : Fault → Prop) (followed : List Nat) (x : Decode α) (R : α → Nat → Prop) :
    Prop where
  unique : ∀ {a b : α} {m n : Nat}, R a m → R b n → a = b ∧ m = n
  ends : ∀ visited, visited ≤ aliasLimit → Ends P followed visited R (x ⟨followed, visited⟩)

namespace Exact

variable {x y : Decode α} {R S : α → Nat → Prop}

theorem congr (h : Exact P followed x R) (hR : ∀ a n, R a n ↔ S a n) : Exact P followed x S := by
  obtain rfl : R = S := funext fun a => funext fun n => propext (hR a n)
  exact h

/-- A decoder that does the same from the given aliases is as exact. -/
theorem of_eq (h : Exact P followed x R) (heq : ∀ v, y ⟨followed, v⟩ = x ⟨followed, v⟩) :
    Exact P followed y R :=
  ⟨h.unique, fun v hv => heq v ▸ h.ends v hv⟩

theorem pure (a : α) : Exact P followed (Pure.pure a) fun b n => b = a ∧ n = 0 where
  unique := by
    rintro a b m n ⟨rfl, rfl⟩ ⟨rfl, rfl⟩
    exact ⟨rfl, rfl⟩
  ends := fun _ hv => .ok (n := 0) ⟨rfl, rfl⟩ hv

/-- A decoder that always fails is exact where there is no answer. -/
theorem refuse {p : Place} {c : Misfit} (hP : P ⟨p, c⟩) (h : ∀ a n, ¬ R a n) :
    Exact P followed (fail p c) R :=
  ⟨fun ha => (h _ _ ha).elim, fun _ _ => .error hP fun a n ha => (h a n ha).elim⟩

/-- A value of the whole is one of the second part, for some value of the first one, and the visits
add up. A failure is one of the first part, or of the second one after it. -/
theorem bind {f : α → Decode β} {T : α → β → Nat → Prop} (hx : Exact P followed x R)
    (hf : ∀ a, Exact P followed (f a) (T a)) :
    Exact P followed (x >>= f) fun b n => ∃ a i j, R a i ∧ T a b j ∧ n = i + j where
  unique := by
    rintro b b' m n ⟨a, i, j, hR, hT, rfl⟩ ⟨a', i', j', hR', hT', rfl⟩
    obtain ⟨rfl, rfl⟩ := hx.unique hR hR'
    obtain ⟨rfl, rfl⟩ := (hf a).unique hT hT'
    exact ⟨rfl, rfl⟩
  ends := by
    intro v hv
    show Ends P followed v _ (EStateM.bind x f ⟨followed, v⟩)
    unfold EStateM.bind
    have hends := hx.ends v hv
    generalize x ⟨followed, v⟩ = r at hends
    cases hends with
    | error hP h =>
      refine .error hP ?_
      rintro b n ⟨a, i, j, hR, _, rfl⟩
      have := h a i hR
      omega
    | @ok a i hR hi =>
      have hends' := (hf a).ends (v + i) hi
      dsimp only
      generalize f a ⟨followed, v + i⟩ = r at hends'
      cases hends' with
      | @ok b j hT hj =>
        rw [Nat.add_assoc] at hj ⊢
        exact .ok ⟨a, i, j, hR, hT, rfl⟩ hj
      | error hP h =>
        refine .error hP ?_
        rintro b n ⟨a', i', j, hR', hT, rfl⟩
        obtain ⟨rfl, rfl⟩ := hx.unique hR hR'
        have := h b j hT
        omega

/-- A last step that only wraps up the answer. -/
theorem map (g : α → β) (hx : Exact P followed x R) :
    Exact P followed (x >>= fun a => Pure.pure (g a)) fun b n => ∃ a, R a n ∧ b = g a := by
  refine (hx.bind fun a => pure (g a)).congr fun b n => ?_
  constructor
  · rintro ⟨a, i, j, hR, ⟨rfl, rfl⟩, rfl⟩
    exact ⟨a, hR, rfl⟩
  · rintro ⟨a, hR, rfl⟩
    exact ⟨a, n, 0, hR, ⟨rfl, rfl⟩, rfl⟩

/-- A first step that visits no nodes. -/
theorem after {f : α → Decode β} {A : α → Prop} {T : α → β → Nat → Prop}
    (hx : Exact P followed x fun a n => A a ∧ n = 0) (hf : ∀ a, Exact P followed (f a) (T a)) :
    Exact P followed (x >>= f) fun b n => ∃ a, A a ∧ T a b n := by
  refine (hx.bind hf).congr fun b n => ?_
  constructor
  · rintro ⟨a, i, j, ⟨hA, rfl⟩, hT, rfl⟩
    exact ⟨a, hA, (Nat.zero_add j).symm ▸ hT⟩
  · rintro ⟨a, hA, hT⟩
    exact ⟨a, 0, n, ⟨hA, rfl⟩, hT, (Nat.zero_add n).symm⟩

end Exact

/-! ## The answers of the grammar -/

section

variable {anchors : Anchors}

/-- Whether visited nodes are counted while the given aliases are followed. -/
abbrev counted (followed : List Nat) : Bool := !followed.isEmpty

/-- While aliases are followed, a node denotes a tree without any of them, and so many nodes are
counted for it. -/
def Denotes (anchors : Anchors) (followed : List Nat) (y : Node) (t : Tree) (n : Nat) : Prop :=
  ∃ d : Derivation anchors y t, d.Avoids followed ∧ n = d.visits (counted followed)

/-- While aliases are followed, nodes denote trees one by one without any of them, and so many nodes
are counted for them. -/
def DenoteAll (anchors : Anchors) (followed : List Nat) (ys : List Node) (ts : List Tree) (n : Nat) :
    Prop :=
  ∃ ds : Derivations anchors ys ts, ds.Avoids followed ∧ n = ds.visits (counted followed)

theorem denoteAll_nil {ts : List Tree} {n : Nat} :
    DenoteAll anchors followed [] ts n ↔ ts = [] ∧ n = 0 := by
  constructor
  · rintro ⟨ds, _, rfl⟩
    cases ds
    exact ⟨rfl, rfl⟩
  · rintro ⟨rfl, rfl⟩
    exact ⟨.nil, trivial, rfl⟩

theorem denoteAll_cons {y : Node} {ys : List Node} {t : Tree} {ts : List Tree} {n : Nat} :
    DenoteAll anchors followed (y :: ys) (t :: ts) n ↔
      ∃ i j, Denotes anchors followed y t i ∧ DenoteAll anchors followed ys ts j ∧ n = i + j := by
  constructor
  · rintro ⟨ds, h, rfl⟩
    cases ds with
    | cons d ds => exact ⟨_, _, ⟨d, h.1, rfl⟩, ⟨ds, h.2, rfl⟩, rfl⟩
  · rintro ⟨i, j, ⟨d, hd, rfl⟩, ⟨ds, hds, rfl⟩, rfl⟩
    exact ⟨.cons d ds, ⟨hd, hds⟩, rfl⟩

theorem not_denoteAll_cons_nil {y : Node} {ys : List Node} {n : Nat} :
    ¬ DenoteAll anchors followed (y :: ys) [] n := by
  rintro ⟨ds, _⟩
  cases ds

/-- What an alias of the anchored node with a number stands for: it must not be followed already,
and its target is decoded while it is followed as well. -/
def TargetDenotes (anchors : Anchors) (followed : List Nat) (k : Nat) (t : Tree) (n : Nat) : Prop :=
  k ∉ followed ∧ ∃ z, anchors[k]? = some z ∧ Denotes anchors (k :: followed) z t n

/-- An alias denotes what its target does, at the cost of one visit more. -/
theorem denotes_alias {p : Place} {name : Text} {k n : Nat} {t : Tree} :
    Denotes anchors followed (.alias p name k) t n ↔
      ∃ j, TargetDenotes anchors followed k t j ∧ n = (counted followed).toNat + j := by
  constructor
  · rintro ⟨d, h, rfl⟩
    cases d with
    | expand hy hz d =>
      cases hy
      exact ⟨_, ⟨h.1, _, hz, d, h.2, rfl⟩, rfl⟩
    | form hs _ => exact absurd .intro hs.not_isAlias
  · rintro ⟨j, ⟨hk, z, hz, d, hd, rfl⟩, rfl⟩
    exact ⟨.expand .intro hz d, ⟨hk, hd⟩, rfl⟩

/-- The tree that a node spells with what its parts denote. -/
def SpellingDenotes (anchors : Anchors) (followed : List Nat) (y : Node) (t : Tree) (n : Nat) :
    Prop :=
  ∃ kids, Spells anchors y t kids ∧ DenoteAll anchors followed kids t.children n

/-- A node that is no alias denotes the tree that it spells, at the cost of one visit more. -/
theorem denotes_of_not_isAlias {y : Node} {t : Tree} {n : Nat} (hy : ∀ k, ¬ y.IsAlias k) :
    Denotes anchors followed y t n ↔
      ∃ j, SpellingDenotes anchors followed y t j ∧ n = (counted followed).toNat + j := by
  constructor
  · rintro ⟨d, h, rfl⟩
    cases d with
    | expand hk _ _ => exact absurd hk (hy _)
    | form hs ds => exact ⟨_, ⟨_, hs, ds, h, rfl⟩, rfl⟩
  · rintro ⟨j, ⟨kids, hs, ds, hds, rfl⟩, rfl⟩
    exact ⟨.form hs ds, hds, rfl⟩

end

/-! ## Names and leaves -/

/-- A visit is counted if an alias is being followed, and fails at the limit only. -/
theorem exact_visit {p : Place} (hP : P ⟨p, .aliasLimit⟩) :
    Exact P followed (visit p) fun _ n => n = (counted followed).toNat where
  unique := by
    rintro a b m n rfl rfl
    exact ⟨rfl, rfl⟩
  ends := by
    intro v hv
    unfold visit
    cases followed with
    | nil => exact .ok (n := 0) rfl hv
    | cons k ks =>
      by_cases h : aliasLimit < v + 1
      · simp only [List.isEmpty_cons, Bool.false_eq_true, if_false, if_pos h]
        refine .error hP ?_
        rintro _ n rfl
        exact h
      · simp only [List.isEmpty_cons, Bool.false_eq_true, if_false, if_neg h]
        exact .ok (n := 1) rfl (Nat.le_of_not_lt h)

/-- A node in the place of a tree is counted before anything else. -/
theorem Exact.visited {p : Place} {x : Unit → Decode α} {R : α → Nat → Prop}
    (hP : P ⟨p, .aliasLimit⟩) (hx : Exact P followed (x ()) R) :
    Exact P followed (visit p >>= x) fun a n =>
      ∃ j, R a j ∧ n = (counted followed).toNat + j := by
  refine ((exact_visit hP).bind (T := fun _ => R) fun _ => hx).congr fun a n => ?_
  constructor
  · rintro ⟨_, i, j, rfl, hR, rfl⟩
    exact ⟨j, hR, rfl⟩
  · rintro ⟨j, hR, rfl⟩
    exact ⟨(), _, j, rfl, hR, rfl⟩

/-- A name is decoded exactly from the nodes of names. -/
theorem exact_name {y : Node} (hP : Admits P y.place) :
    Exact P followed (name y) fun x n => y.IsName x ∧ n = 0 := by
  cases y with
  | scalar p tag v =>
    rw [name]
    by_cases h : tag = Yaml.Tag.str ∧ v ≠ []
    · rw [if_pos h]
      obtain ⟨rfl, hv⟩ := h
      refine (Exact.pure v).congr fun x n => ?_
      constructor
      · rintro ⟨rfl, rfl⟩
        exact ⟨.intro hv, rfl⟩
      · rintro ⟨hx, rfl⟩
        cases hx
        exact ⟨rfl, rfl⟩
    · rw [if_neg h]
      refine .refuse (hP _ rfl) ?_
      rintro x n ⟨hx, _⟩
      cases hx with
      | intro hv => exact h ⟨rfl, hv⟩
  | sequence | mapping | «alias» =>
    refine .refuse (hP _ rfl) ?_
    rintro x n ⟨hx, _⟩
    cases hx

theorem exact_names : {ys : List Node} →
    (∀ y ∈ ys, Admits P y.place) →
      Exact P followed (names ys) fun xs n => List.Forall₂ Node.IsName ys xs ∧ n = 0
  | [], _ => by
    refine (Exact.pure []).congr fun xs n => ?_
    simp
  | y :: ys, hP => by
    have hy : Exact P followed (name y) _ := exact_name (hP y List.mem_cons_self)
    have hys := exact_names fun z hz => hP z (List.mem_cons_of_mem y hz)
    refine (hy.after fun x => hys.map (List.cons x)).congr fun xs n => ?_
    constructor
    · rintro ⟨x, hx, us, ⟨hus, rfl⟩, rfl⟩
      exact ⟨.cons hx hus, rfl⟩
    · rintro ⟨h, rfl⟩
      cases h with
      | cons hx hus => exact ⟨_, hx, _, ⟨hus, rfl⟩, rfl⟩

/-- Parameters are decoded exactly from the lists of names. -/
theorem exact_params {y : Node} (hP : ∀ z ∈ y.parts, Admits P z.place) :
    Exact P followed (params y) fun xs n =>
      (∃ items, y.IsList items ∧ List.Forall₂ Node.IsName items xs) ∧ n = 0 := by
  cases y with
  | sequence p tag flow items =>
    have hitems : ∀ z ∈ items, Admits P z.place := fun z hz =>
      hP z (List.mem_cons_of_mem _ (Node.parts_subset_partsOfAll hz z.mem_parts))
    refine (exact_names hitems).congr fun xs n => ?_
    constructor
    · rintro ⟨hxs, rfl⟩
      exact ⟨⟨items, .intro, hxs⟩, rfl⟩
    · rintro ⟨⟨_, hl, hxs⟩, rfl⟩
      cases hl
      exact ⟨hxs, rfl⟩
  | scalar | mapping | «alias» =>
    refine .refuse (hP _ (Node.mem_parts _) _ rfl) ?_
    rintro xs n ⟨⟨_, hl, _⟩, _⟩
    cases hl

/-- A scalar is decoded exactly if it spells a number, and it has no nodes inside. -/
theorem exact_literal {anchors : Anchors} {p : Place} {tag v : Text}
    (hP : Admits P p) :
    Exact P followed (literal p tag v) (SpellingDenotes anchors followed (.scalar p tag v)) := by
  have hspells : ∀ t n, SpellingDenotes anchors followed (.scalar p tag v) t n ↔
      ∃ i, (Node.scalar p tag v).IsInteger i ∧ t = .literal i ∧ n = 0 := by
    intro t n
    constructor
    · rintro ⟨kids, hs, hds⟩
      cases hs with
      | literal hi => exact ⟨_, hi, rfl, (denoteAll_nil.1 hds).2⟩
      | form he _ => cases he
    · rintro ⟨i, hi, rfl, rfl⟩
      exact ⟨[], .literal hi, denoteAll_nil.2 ⟨rfl, rfl⟩⟩
  unfold literal
  by_cases htag : tag = Yaml.Tag.int
  · subst htag
    rw [if_pos rfl]
    cases hv : Yaml.Scalar.toInt64 p v with
    | ok i =>
      refine (Exact.pure (Tree.literal i)).congr fun t n => ?_
      rw [hspells]
      constructor
      · rintro ⟨rfl, rfl⟩
        exact ⟨i, .intro hv, rfl, rfl⟩
      · rintro ⟨j, hj, rfl, rfl⟩
        cases hj with
        | intro hj =>
          cases hv.symm.trans hj
          exact ⟨rfl, rfl⟩
    | error f =>
      refine .refuse (hP _ rfl) fun t n ht => ?_
      obtain ⟨i, hi, _⟩ := (hspells t n).1 ht
      cases hi with
      | intro hi => cases hv.symm.trans hi
  · rw [if_neg htag]
    refine .refuse (hP _ rfl) fun t n ht => ?_
    obtain ⟨i, hi, _⟩ := (hspells t n).1 ht
    cases hi
    exact htag rfl

/-! ## Forms -/

section Forms

variable {anchors : Anchors} {follow : Place → Nat → Decode Tree}

/-- The trees of a form with an operand, with what the parts of the operand denote. -/
def FormDenotes (anchors : Anchors) (followed : List Nat) (f : Form) (o : Node) (t : Tree) (n : Nat) :
    Prop :=
  ∃ kids, f.Takes anchors o t kids ∧ DenoteAll anchors followed kids t.children n

/-- The decoder of a node in the place of a tree is exact. -/
abbrev Settled (P : Fault → Prop) (anchors : Anchors) (followed : List Nat)
    (follow : Place → Nat → Decode Tree) (y : Node) : Prop :=
  Exact P followed (node (Node.tag? anchors) follow y) (Denotes anchors followed y)

/-- Nodes that are settled are decoded exactly, one after the other. -/
theorem exact_trees : {ys : List Node} → (∀ y ∈ ys, Settled P anchors followed follow y) →
    Exact P followed (trees (suspended (Node.tag? anchors) follow ys)) (DenoteAll anchors followed ys)
  | [], _ => (Exact.pure []).congr fun _ _ => denoteAll_nil.symm
  | y :: ys, h => by
    have hys := exact_trees fun z hz => h z (List.mem_cons_of_mem y hz)
    refine ((h y List.mem_cons_self).bind fun t => hys.map (List.cons t)).congr fun ts n => ?_
    constructor
    · rintro ⟨t, i, j, ht, ⟨us, hus, rfl⟩, rfl⟩
      exact denoteAll_cons.2 ⟨i, j, ht, hus, rfl⟩
    · intro hts
      cases ts with
      | nil => exact absurd hts not_denoteAll_cons_nil
      | cons t us =>
        obtain ⟨i, j, ht, hus, rfl⟩ := denoteAll_cons.1 hts
        exact ⟨t, i, j, ht, ⟨us, hus, rfl⟩, rfl⟩

/-- A tree around one decoded tree. -/
theorem exact_one {a : Node} (g : Tree → Tree) (ha : Settled P anchors followed follow a) :
    Exact P followed (do return g (← node (Node.tag? anchors) follow a))
      fun t n => ∃ l, t = g l ∧ DenoteAll anchors followed [a] [l] n := by
  refine (ha.map g).congr fun t n => ?_
  constructor
  · rintro ⟨l, hl, rfl⟩
    exact ⟨l, rfl, denoteAll_cons.2 ⟨n, 0, hl, denoteAll_nil.2 ⟨rfl, rfl⟩, rfl⟩⟩
  · rintro ⟨l, rfl, h⟩
    obtain ⟨i, j, hl, hnil, rfl⟩ := denoteAll_cons.1 h
    obtain ⟨_, rfl⟩ := denoteAll_nil.1 hnil
    exact ⟨l, hl, rfl⟩

/-- A tree around two decoded trees. -/
theorem exact_two {a b : Node} (g : Tree → Tree → Tree) (ha : Settled P anchors followed follow a)
    (hb : Settled P anchors followed follow b) :
    Exact P followed
      (do return g (← node (Node.tag? anchors) follow a) (← node (Node.tag? anchors) follow b))
      fun t n => ∃ l r, t = g l r ∧ DenoteAll anchors followed [a, b] [l, r] n := by
  refine (ha.bind fun l => exact_one (g l) hb).congr fun t n => ?_
  constructor
  · rintro ⟨l, i, j, hl, ⟨r, rfl, hr⟩, rfl⟩
    exact ⟨l, r, rfl, denoteAll_cons.2 ⟨i, j, hl, hr, rfl⟩⟩
  · rintro ⟨l, r, rfl, h⟩
    obtain ⟨i, j, hl, hr, rfl⟩ := denoteAll_cons.1 h
    exact ⟨l, i, j, hl, ⟨r, rfl, hr⟩, rfl⟩

/-- A tree around three decoded trees. -/
theorem exact_three {a b c : Node} (g : Tree → Tree → Tree → Tree)
    (ha : Settled P anchors followed follow a) (hb : Settled P anchors followed follow b)
    (hc : Settled P anchors followed follow c) :
    Exact P followed
      (do return g (← node (Node.tag? anchors) follow a) (← node (Node.tag? anchors) follow b)
            (← node (Node.tag? anchors) follow c))
      fun t n => ∃ l r s, t = g l r s ∧ DenoteAll anchors followed [a, b, c] [l, r, s] n := by
  refine (ha.bind fun l => exact_two (g l) hb hc).congr fun t n => ?_
  constructor
  · rintro ⟨l, i, j, hl, ⟨r, s, rfl, hrs⟩, rfl⟩
    exact ⟨l, r, s, rfl, denoteAll_cons.2 ⟨i, j, hl, hrs, rfl⟩⟩
  · rintro ⟨l, r, s, rfl, h⟩
    obtain ⟨i, j, hl, hrs, rfl⟩ := denoteAll_cons.1 h
    exact ⟨l, i, j, hl, ⟨r, s, rfl, hrs⟩, rfl⟩

section Lists

variable {q : Place} {tag : Text} {flow : Bool} {items : List Node}

/-- The decoder of the operands of a form is exact. -/
abbrev OperandsExact (P : Fault → Prop) (anchors : Anchors) (followed : List Nat)
    (follow : Place → Nat → Decode Tree) (f : Form) (q : Place) (tag : Text) (flow : Bool)
    (items : List Node) : Prop :=
  Exact P followed (operands f q (suspended (Node.tag? anchors) follow items))
    (FormDenotes anchors followed f (.sequence q tag flow items))

/-- An operator has two operands. -/
theorem exact_operator (op : Op) (hq : Admits P q)
    (h : ∀ y ∈ items, Settled P anchors followed follow y) :
    OperandsExact P anchors followed follow (.operator op) q tag flow items := by
  match items, h with
  | [a, b], h =>
    refine (exact_two (Tree.binary op) (h a (by simp)) (h b (by simp))).congr fun t n => ?_
    constructor
    · rintro ⟨l, r, rfl, hds⟩
      exact ⟨_, .operator op l r .intro, hds⟩
    · rintro ⟨_, htakes, hds⟩
      cases htakes with
      | operator _ l r hl =>
        cases hl
        exact ⟨l, r, rfl, hds⟩
  | [], _ | [_], _ | _ :: _ :: _ :: _, _ =>
    refine .refuse (hq _ rfl) ?_
    rintro t n ⟨_, htakes, _⟩
    cases htakes with
    | operator _ _ _ hl => cases hl

/-- A loop has a test and a body. -/
theorem exact_loop (hq : Admits P q)
    (h : ∀ y ∈ items, Settled P anchors followed follow y) :
    OperandsExact P anchors followed follow .loop q tag flow items := by
  match items, h with
  | [a, b], h =>
    refine (exact_two Tree.loop (h a (by simp)) (h b (by simp))).congr fun t n => ?_
    constructor
    · rintro ⟨l, r, rfl, hds⟩
      exact ⟨_, .loop l r .intro, hds⟩
    · rintro ⟨_, htakes, hds⟩
      cases htakes with
      | loop l r hl =>
        cases hl
        exact ⟨l, r, rfl, hds⟩
  | [], _ | [_], _ | _ :: _ :: _ :: _, _ =>
    refine .refuse (hq _ rfl) ?_
    rintro t n ⟨_, htakes, _⟩
    cases htakes with
    | loop _ _ hl => cases hl

/-- A condition has a test and two branches. -/
theorem exact_cond (hq : Admits P q)
    (h : ∀ y ∈ items, Settled P anchors followed follow y) :
    OperandsExact P anchors followed follow .cond q tag flow items := by
  match items, h with
  | [c, a, b], h =>
    refine (exact_three Tree.cond (h c (by simp)) (h a (by simp)) (h b (by simp))).congr
      fun t n => ?_
    constructor
    · rintro ⟨l, r, s, rfl, hds⟩
      exact ⟨_, .cond l r s .intro, hds⟩
    · rintro ⟨_, htakes, hds⟩
      cases htakes with
      | cond l r s hl =>
        cases hl
        exact ⟨l, r, s, rfl, hds⟩
  | [], _ | [_], _ | [_, _], _ | _ :: _ :: _ :: _ :: _, _ =>
    refine .refuse (hq _ rfl) ?_
    rintro t n ⟨_, htakes, _⟩
    cases htakes with
    | cond _ _ _ hl => cases hl

/-- A sequence has any number of operands. -/
theorem exact_seq (h : ∀ y ∈ items, Settled P anchors followed follow y) :
    OperandsExact P anchors followed follow .seq q tag flow items := by
  refine ((exact_trees h).map Tree.seq).congr fun t n => ?_
  constructor
  · rintro ⟨ts, hds, rfl⟩
    exact ⟨_, .seq ts .intro, hds⟩
  · rintro ⟨_, htakes, hds⟩
    cases htakes with
    | seq ts hl =>
      cases hl
      exact ⟨ts, hds, rfl⟩

/-- A name and then one decoded tree. -/
theorem exact_named {x e : Node} (g : Text → Tree → Tree)
    (hx : Admits P x.place) (he : Settled P anchors followed follow e) :
    Exact P followed (do return g (← name x) (← node (Node.tag? anchors) follow e))
      fun t n => ∃ s, x.IsName s ∧ ∃ l, t = g s l ∧ DenoteAll anchors followed [e] [l] n :=
  (exact_name hx).after fun s => exact_one (g s) he

/-- A declaration has a name and one operand. -/
theorem exact_declare (hq : Admits P q)
    (hitems : ∀ y ∈ items, Admits P y.place)
    (h : ∀ y ∈ items, Settled P anchors followed follow y) :
    OperandsExact P anchors followed follow .declare q tag flow items := by
  match items, hitems, h with
  | [x, e], hitems, h =>
    refine (exact_named Tree.declare (hitems x (by simp)) (h e (by simp))).congr fun t n => ?_
    constructor
    · rintro ⟨s, hs, l, rfl, hds⟩
      exact ⟨_, .declare l .intro hs, hds⟩
    · rintro ⟨_, htakes, hds⟩
      cases htakes with
      | declare l hl hs =>
        cases hl
        exact ⟨_, hs, l, rfl, hds⟩
  | [], _, _ | [_], _, _ | _ :: _ :: _ :: _, _, _ =>
    refine .refuse (hq _ rfl) ?_
    rintro t n ⟨_, htakes, _⟩
    cases htakes with
    | declare _ hl _ => cases hl

/-- An assignment has a name and one operand. -/
theorem exact_assign (hq : Admits P q)
    (hitems : ∀ y ∈ items, Admits P y.place)
    (h : ∀ y ∈ items, Settled P anchors followed follow y) :
    OperandsExact P anchors followed follow .assign q tag flow items := by
  match items, hitems, h with
  | [x, e], hitems, h =>
    refine (exact_named Tree.assign (hitems x (by simp)) (h e (by simp))).congr fun t n => ?_
    constructor
    · rintro ⟨s, hs, l, rfl, hds⟩
      exact ⟨_, .assign l .intro hs, hds⟩
    · rintro ⟨_, htakes, hds⟩
      cases htakes with
      | assign l hl hs =>
        cases hl
        exact ⟨_, hs, l, rfl, hds⟩
  | [], _, _ | [_], _, _ | _ :: _ :: _ :: _, _, _ =>
    refine .refuse (hq _ rfl) ?_
    rintro t n ⟨_, htakes, _⟩
    cases htakes with
    | assign _ hl _ => cases hl

/-- A definition has a name, a list of parameters and a body. Of the three only the body is a tree,
so it alone is settled by the nodes inside. -/
theorem exact_define (hq : Admits P q)
    (hitems : ∀ y ∈ items, ∀ z ∈ y.parts, Admits P z.place)
    (h : ∀ y ∈ items, Settled P anchors followed follow y) :
    OperandsExact P anchors followed follow .define q tag flow items := by
  match items, hitems, h with
  | [x, ps, b], hitems, h =>
    have hx : Exact P followed (name x) _ := exact_name (hitems x (by simp) x x.mem_parts)
    have hps : Exact P followed (params ps) _ := exact_params (hitems ps (by simp))
    refine (hx.after fun s => hps.after fun xs =>
      exact_one (Tree.define s xs) (h b (by simp))).congr fun t n => ?_
    constructor
    · rintro ⟨s, hs, xs, ⟨ys, hys, hxs⟩, l, rfl, hds⟩
      exact ⟨_, .define l .intro hs hys hxs, hds⟩
    · rintro ⟨_, htakes, hds⟩
      cases htakes with
      | define l hl hs hys hxs =>
        cases hl
        exact ⟨_, hs, _, ⟨_, hys, hxs⟩, l, rfl, hds⟩
  | [], _, _ | [_], _, _ | [_, _], _, _ | _ :: _ :: _ :: _ :: _, _, _ =>
    refine .refuse (hq _ rfl) ?_
    rintro t n ⟨_, htakes, _⟩
    cases htakes with
    | define _ hl _ _ _ => cases hl

/-- A call has a name and any number of operands behind it. -/
theorem exact_call (hq : Admits P q)
    (hitems : ∀ y ∈ items, Admits P y.place)
    (h : ∀ y ∈ items, Settled P anchors followed follow y) :
    OperandsExact P anchors followed follow .call q tag flow items := by
  match items, hitems, h with
  | x :: args, hitems, h =>
    have hx : Exact P followed (name x) _ := exact_name (hitems x (by simp))
    have hargs := exact_trees fun y hy => h y (List.mem_cons_of_mem x hy)
    refine (hx.after fun s => hargs.map (Tree.call s)).congr fun t n => ?_
    constructor
    · rintro ⟨s, hs, ts, hds, rfl⟩
      exact ⟨_, .call ts .intro hs, hds⟩
    · rintro ⟨_, htakes, hds⟩
      cases htakes with
      | call ts hl hs =>
        cases hl
        exact ⟨_, hs, ts, hds, rfl⟩
  | [], _, _ =>
    refine .refuse (hq _ rfl) ?_
    rintro t n ⟨_, htakes, _⟩
    cases htakes with
    | call _ hl _ => cases hl

end Lists

/-- The form without operand looks for the tag of what stands in the place of one. -/
theorem exact_noOperand {o : Node} (ho : Admits P o.place)
    (hend : o.Endless anchors → P ⟨o.place, .endlessAlias⟩) :
    Exact P followed (noOperand (o.tag? anchors) o) (FormDenotes anchors followed .none o) := by
  cases htag : o.tag? anchors with
  | none =>
    have hendless := Node.tag?_eq_none_iff.1 htag
    refine .refuse (hend hendless) ?_
    rintro t n ⟨_, htakes, _⟩
    cases htakes with
    | none h => exact h.not_endless hendless
  | some tag =>
    have hhas := Node.tag?_eq_some_iff.1 htag
    unfold noOperand
    dsimp only
    by_cases h : tag = Yaml.Tag.null
    · rw [if_pos h]
      refine (Exact.pure Tree.none).congr fun t n => ?_
      constructor
      · rintro ⟨rfl, rfl⟩
        exact ⟨[], .none (h ▸ hhas), denoteAll_nil.2 ⟨rfl, rfl⟩⟩
      · rintro ⟨_, htakes, hds⟩
        cases htakes with
        | none _ => exact ⟨rfl, (denoteAll_nil.1 hds).2⟩
    · rw [if_neg h]
      refine .refuse (ho _ rfl) ?_
      rintro t n ⟨_, htakes, _⟩
      cases htakes with
      | none h' => exact h (hhas.unique h')

theorem exact_var {o : Node} (ho : Admits P o.place) :
    Exact P followed (do return .var (← name o)) (FormDenotes anchors followed .var o) := by
  refine ((exact_name ho).map Tree.var).congr fun t n => ?_
  constructor
  · rintro ⟨x, ⟨hx, rfl⟩, rfl⟩
    exact ⟨[], .var hx, denoteAll_nil.2 ⟨rfl, rfl⟩⟩
  · rintro ⟨_, htakes, hds⟩
    cases htakes with
    | var hx => exact ⟨_, ⟨hx, (denoteAll_nil.1 hds).2⟩, rfl⟩

theorem exact_print {o : Node} (ho : Settled P anchors followed follow o) :
    Exact P followed (do return .print (← node (Node.tag? anchors) follow o))
      (FormDenotes anchors followed .print o) := by
  refine (exact_one Tree.print ho).congr fun t n => ?_
  constructor
  · rintro ⟨l, rfl, hds⟩
    exact ⟨_, .print l, hds⟩
  · rintro ⟨_, htakes, hds⟩
    cases htakes with
    | print l => exact ⟨l, rfl, hds⟩

/-- The decoder of a form with a list of operands. -/
theorem exact_list {f : Form} {o : Node} (hnone : f ≠ .none) (hvar : f ≠ .var)
    (hprint : f ≠ .print) (hblame : ∀ z ∈ o.parts, Admits P z.place)
    (h : ∀ z ∈ o.parts, Settled P anchors followed follow z) :
    Exact P followed
      (match o with
      | .sequence q _ _ items => operands f q (suspended (Node.tag? anchors) follow items)
      | n => fail n.place (if f = .call then .noFunction else .notList f.name))
      (FormDenotes anchors followed f o) := by
  cases o with
  | sequence q tag flow items =>
    have hq := hblame _ (Node.mem_parts _)
    have hparts : ∀ y ∈ items, y.parts ⊆ (Node.sequence q tag flow items).parts :=
      fun y hy => List.subset_cons_of_subset _ (Node.parts_subset_partsOfAll hy)
    have hitems : ∀ y ∈ items, Settled P anchors followed follow y :=
      fun y hy => h y (hparts y hy y.mem_parts)
    have hnames : ∀ y ∈ items, Admits P y.place :=
      fun y hy => hblame y (hparts y hy y.mem_parts)
    cases f with
    | none | var | print => contradiction
    | operator op => exact exact_operator op hq hitems
    | seq => exact exact_seq hitems
    | cond => exact exact_cond hq hitems
    | loop => exact exact_loop hq hitems
    | declare => exact exact_declare hq hnames hitems
    | assign => exact exact_assign hq hnames hitems
    | define => exact exact_define hq (fun y hy z hz => hblame z (hparts y hy hz)) hitems
    | call => exact exact_call hq hnames hitems
  | scalar | mapping | «alias» =>
    refine .refuse (hblame _ (Node.mem_parts _) _ (by split <;> rfl)) ?_
    rintro t n ⟨_, htakes, _⟩
    obtain ⟨items, hl⟩ := Form.Takes.isList htakes hnone hvar hprint
    cases hl

end Forms

end Decode

end TreeLang
