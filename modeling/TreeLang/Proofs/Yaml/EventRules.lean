import TreeLang.Proofs.Yaml.Layout
import TreeLang.Yaml.Event

/-!
# Meeting one goal

What each goal of the grammar does in front of the tokens of a written text. `EventStream.Offers`
says which goals a stream has and which tokens it hands out. There are no comments, no anchors and
no tags, so a node starts with its first token.
-/

set_option autoImplicit false

namespace TreeLang.Yaml.EventStream

open Layout (listStart listEnd entryStart entryEnd itemMark)
open TokenStream (Yields Holds Sound)

/-! ## Rules -/

section Rules

variable {b : Prop} {e : EventStream}

@[simp] theorem leads_scanning {α : Type} (r : Scan α) {Q : α → EventStream → Prop} :
    Leads b (scanning r) e Q ↔ Leads b r e.tokens fun a t => Q a { e with tokens := t } := by
  unfold Leads scanning
  cases r e.tokens <;> exact Iff.rfl

@[simp] theorem leads_push {Q : Unit → EventStream → Prop} (g : Goal) :
    Leads b (push g) e Q ↔ Q () { e with goals := g :: e.goals } := Iff.rfl

@[simp] theorem leads_attachHeads {Q : Unit → EventStream → Prop} :
    Leads b attachHeads e Q ↔ Q () { e with heads := [] } := Iff.rfl

end Rules

/-! ## Looking at tokens and taking them -/

/-- The stream has the given goals and hands out tokens of the kinds `ks`, and no comment waits. -/
structure Offers (b : Prop) (N : Nat) (e : EventStream) (goals : List Goal) (ks : List TokenKind) :
    Prop where
  heads : e.heads = []
  goals_eq : e.goals = goals
  yields : Yields b N e.tokens ks

/-- The stream has looked at a token and hands out tokens of the kinds `ks` after it. -/
structure Shown (b : Prop) (N : Nat) (e : EventStream) (goals : List Goal) (t : Token)
    (ks : List TokenKind) : Prop where
  heads : e.heads = []
  goals_eq : e.goals = goals
  holds : Holds b N e.tokens t ks

section Looking

variable {b : Prop} {N : Nat} {e : EventStream} {goals : List Goal} {t : Token} {k : TokenKind}
  {ks : List TokenKind}

theorem Shown.offers (h : Shown b N e goals t ks) : Offers b N e goals (t.kind :: ks) :=
  ⟨h.heads, h.goals_eq, h.holds.yields⟩

theorem Shown.offers_of (h : Shown b N e goals t ks) (hk : t.kind = k) : Offers b N e goals (k :: ks) :=
  hk ▸ h.offers

theorem Shown.noHeads (h : Shown b N e goals t ks) : Shown b N { e with heads := [] } goals t ks :=
  ⟨rfl, h.goals_eq, h.holds⟩

theorem Offers.sound (h : Offers b N e goals ks) : Sound N e.tokens := h.yields.sound

theorem Offers.push (h : Offers b N e goals ks) (g : Goal) :
    Offers b N { e with goals := g :: e.goals } (g :: goals) ks :=
  ⟨h.heads, congrArg (g :: ·) h.goals_eq, h.yields⟩

theorem Offers.leads_peek (h : Offers b N e goals (k :: ks)) :
    Leads b peek e fun t e' => t.kind = k ∧ Shown b N e' goals t ks := by
  unfold peek
  simp only [leads_bind, leads_scanning]
  refine h.yields.leads_peek.mono fun t tokens ht => ?_
  refine TokenStream.leads_claim ht.2.yields.sound t ?_
  simp only [leads_modify, leads_pure, List.filter_nil, List.reverse_nil, List.nil_append]
  exact ⟨ht.1, h.heads, h.goals_eq, ht.2⟩

theorem Shown.leads_skip (h : Shown b N e goals t ks) :
    Leads b skip e fun _ e' => Offers b N e' goals ks := by
  unfold skip
  rw [leads_scanning]
  exact h.holds.leads_skip.mono fun _ tokens ht => ⟨h.heads, h.goals_eq, ht⟩

theorem Shown.leads_skipAndPeek (h : Shown b N e goals t (k :: ks)) :
    Leads b skipAndPeek e fun t' e' => t'.kind = k ∧ Shown b N e' goals t' ks := by
  unfold skipAndPeek
  rw [leads_bind]
  exact h.leads_skip.mono fun _ e' he' => he'.leads_peek

end Looking

/-! ## The start of a node -/

/-- Whether a node without anchor and tag starts with a token of the kind. -/
def opensNode : TokenKind → Bool
  | .scalar _ _ | .flowSequenceStart | .flowMappingStart | .blockSequenceStart | .blockMappingStart => true
  | _ => false

theorem ne_of_opensNode {k k' : TokenKind} (hk : opensNode k = true) (hk' : opensNode k' = false) :
    k ≠ k' := by
  rintro rfl
  rw [hk] at hk'
  cases hk'

/-- What is done once the anchor and the tag of a node are known. -/
def content (block indentless : Bool) (props : Properties) (t : Token) : Parse Event := do
  match t.kind, block, indentless with
  | .blockEntry, _, true =>
    push .indentlessEntry
    return .sequenceStart props false
  | .scalar value plain, _, _ =>
    attachHeads
    skip
    return .scalar props value plain
  | .flowSequenceStart, _, _ =>
    attachHeads
    skip
    push (.flowEntry t.start true)
    return .sequenceStart props true
  | .flowMappingStart, _, _ =>
    attachHeads
    skip
    push (.flowKey t.start true)
    return .mappingStart props true
  | .blockSequenceStart, true, _ =>
    skip
    push (.blockEntry t.start)
    return .sequenceStart props false
  | .blockMappingStart, true, _ =>
    skip
    push (.blockKey t.start)
    return .mappingStart props false
  | _, _, _ =>
    if props.anchor.isSome || props.tag.isSome then return .scalar props [] true
    else fail .noNodeContent props.start t.start

theorem node_eq (block indentless : Bool) : node block indentless = (do
    let t ← peek
    if let .alias name := t.kind then
      attachHeads
      skip
      return .alias t.start name
    let (props, t) ← properties
    content block indentless props t) := rfl

section Nodes

variable {b : Prop} {N : Nat} {e : EventStream} {goals : List Goal} {k : TokenKind} {ks : List TokenKind}
  {block indentless : Bool}

theorem leads_properties (h : Offers b N e goals (k :: ks)) (hk : opensNode k = true) :
    Leads b properties e fun p e' =>
      p.1 = { start := p.2.start } ∧ p.2.kind = k ∧ Shown b N e' goals p.2 ks := by
  unfold properties
  rw [leads_bind]
  refine h.leads_peek.mono fun t e₁ ht => ?_
  split
  · rename_i heq
    exact absurd (ht.1.symm.trans heq) (ne_of_opensNode hk rfl)
  · rename_i heq
    exact absurd (ht.1.symm.trans heq) (ne_of_opensNode hk rfl)
  · exact ⟨rfl, ht⟩

theorem leads_node {Q : Event → EventStream → Prop} (h : Offers b N e goals (k :: ks))
    (hk : opensNode k = true)
    (hgo : ∀ {t : Token} {e' : EventStream}, t.kind = k → Shown b N e' goals t ks →
      Leads b (content block indentless { start := t.start } t) e' Q) :
    Leads b (node block indentless) e Q := by
  rw [node_eq, leads_bind]
  refine h.leads_peek.mono fun t e₁ ht => ?_
  have hoffers := ht.2.offers_of ht.1
  split
  · rename_i heq
    exact absurd (ht.1.symm.trans heq) (ne_of_opensNode hk rfl)
  · rw [leads_bind]
    refine (leads_properties hoffers hk).mono fun p e₂ hp => ?_
    obtain ⟨props, u⟩ := p
    obtain ⟨hprops, hkind, hu⟩ := hp
    obtain rfl : props = { start := u.start } := hprops
    exact hgo hkind hu

/-- A scalar is a node by itself. -/
theorem leads_node_scalar {value : Text} {plain : Bool}
    (h : Offers b N e goals (.scalar value plain :: ks)) :
    Leads b (node block indentless) e fun ev e' =>
      (∃ m, ev = .scalar { start := m } value plain) ∧ Offers b N e' goals ks := by
  refine leads_node h rfl fun {t e'} hkind ht => ?_
  unfold content
  rw [hkind]
  simp only [leads_bind, leads_attachHeads, leads_pure]
  have ht' := ht.noHeads
  exact ht'.leads_skip.mono fun _ e'' he'' => ⟨⟨t.start, rfl⟩, he''⟩

/-- The goal of the items of a list. -/
def itemGoal (flow : Bool) (opened : Mark) (first : Bool) : Goal :=
  if flow then .flowEntry opened first else .blockEntry opened

/-- The goal of the key of an entry. -/
def keyGoal (flow : Bool) (opened : Mark) (first : Bool) : Goal :=
  if flow then .flowKey opened first else .blockKey opened

/-- The goal of the operand of an entry. -/
def valueGoal (flow : Bool) (opened : Mark) : Goal :=
  if flow then .flowValue opened else .blockValue opened

/-- A list starts. -/
theorem leads_node_list {flow : Bool} (hblock : flow = false → block = true)
    (h : Offers b N e goals (listStart flow :: ks)) :
    Leads b (node block indentless) e fun ev e' => ∃ m opened,
      ev = .sequenceStart { start := m } flow ∧ Offers b N e' (itemGoal flow opened true :: goals) ks := by
  refine leads_node h (by cases flow <;> rfl) fun {t e'} hkind ht => ?_
  unfold content
  cases flow with
  | true =>
    have ht' := ht.noHeads
    rw [hkind]
    simp only [listStart, if_true, leads_bind, leads_attachHeads, leads_push, leads_pure]
    exact ht'.leads_skip.mono fun _ e'' he'' => ⟨t.start, t.start, rfl, he''.push _⟩
  | false =>
    rw [hkind, hblock rfl]
    simp only [listStart, Bool.false_eq_true, if_false, leads_bind, leads_push, leads_pure]
    exact ht.leads_skip.mono fun _ e'' he'' => ⟨t.start, t.start, rfl, he''.push _⟩

/-- An entry starts. -/
theorem leads_node_entry {flow : Bool} (hblock : flow = false → block = true)
    (h : Offers b N e goals (entryStart flow :: ks)) :
    Leads b (node block indentless) e fun ev e' => ∃ m opened,
      ev = .mappingStart { start := m } flow ∧ Offers b N e' (keyGoal flow opened true :: goals) ks := by
  refine leads_node h (by cases flow <;> rfl) fun {t e'} hkind ht => ?_
  unfold content
  cases flow with
  | true =>
    have ht' := ht.noHeads
    rw [hkind]
    simp only [entryStart, if_true, leads_bind, leads_attachHeads, leads_push, leads_pure]
    exact ht'.leads_skip.mono fun _ e'' he'' => ⟨t.start, t.start, rfl, he''.push _⟩
  | false =>
    rw [hkind, hblock rfl]
    simp only [entryStart, Bool.false_eq_true, if_false, leads_bind, leads_push, leads_pure]
    exact ht.leads_skip.mono fun _ e'' he'' => ⟨t.start, t.start, rfl, he''.push _⟩

end Nodes

/-! ## Inside collections -/

section Collections

variable {b : Prop} {N : Nat} {e : EventStream} {goals : List Goal} {k : TokenKind} {ks : List TokenKind}
  {flow : Bool} {opened : Mark}

/-- The next item of a list. -/
theorem leads_meet_item {Q : Event → EventStream → Prop} {first : Bool}
    (h : Offers b N e goals (itemMark flow first ++ k :: ks)) (hk : opensNode k = true)
    (hgo : ∀ {e' : EventStream}, Offers b N e' (itemGoal flow opened false :: goals) (k :: ks) →
      Leads b (node (!flow) false) e' Q) :
    Leads b (meet (itemGoal flow opened first)) e Q := by
  cases flow with
  | true =>
    -- the first item has no comma in front
    have hnext : Leads b (flowNext opened first .flowSequenceEnd .noFlowSequenceEnd) e fun t e' =>
        t.kind = k ∧ Shown b N e' goals t ks := by
      unfold flowNext
      rw [leads_bind]
      cases first with
      | true =>
        refine h.leads_peek.mono fun t e₁ ht => ?_
        rw [Bool.or_true, if_pos rfl]
        exact ht
      | false =>
        refine h.leads_peek.mono fun t e₁ ht => ?_
        rw [ht.1]
        exact ht.2.leads_skipAndPeek
    show Leads b (flowEntry opened first) e Q
    unfold flowEntry
    rw [leads_bind]
    refine hnext.mono fun t e₁ ht => ?_
    have hoffers := ht.2.offers_of ht.1
    split
    · rename_i heq
      exact absurd (ht.1.symm.trans heq) (ne_of_opensNode hk rfl)
    · rename_i heq
      exact absurd (ht.1.symm.trans heq) (ne_of_opensNode hk rfl)
    · exact hgo (hoffers.push _)
  | false =>
    show Leads b (blockEntry opened) e Q
    unfold blockEntry skipDash
    rw [leads_bind]
    refine h.leads_peek.mono fun t e₁ ht => ?_
    rw [ht.1]
    simp only [leads_bind, leads_get, ht.2.heads, List.length_nil, Nat.lt_irrefl, if_false]
    refine ht.2.leads_skip.mono fun _ e₂ h₂ => ?_
    refine h₂.leads_peek.mono fun u e₃ hu => ?_
    have hoffers := hu.2.offers_of hu.1
    split
    · rename_i heq
      exact absurd (hu.1.symm.trans heq) (ne_of_opensNode hk rfl)
    · rename_i heq
      exact absurd (hu.1.symm.trans heq) (ne_of_opensNode hk rfl)
    · exact hgo (hoffers.push _)

/-- The end of a list. -/
theorem leads_meet_listEnd {first : Bool} (h : Offers b N e goals (listEnd flow :: ks)) :
    Leads b (meet (itemGoal flow opened first)) e fun ev e' =>
      ev = .sequenceEnd ∧ Offers b N e' goals ks := by
  cases flow with
  | true =>
    show Leads b (flowEntry opened first) e _
    unfold flowEntry flowNext
    simp only [leads_bind]
    refine h.leads_peek.mono fun t e₁ ht => ?_
    have hkind : t.kind = .flowSequenceEnd := ht.1
    have ht' := ht.2.noHeads
    simp only [hkind, beq_self_eq_true, Bool.true_or, if_true, leads_pure, leads_bind, leads_attachHeads]
    exact ht'.leads_skip.mono fun _ e'' he'' => ⟨trivial, he''⟩
  | false =>
    show Leads b (blockEntry opened) e _
    unfold blockEntry
    rw [leads_bind]
    refine h.leads_peek.mono fun t e₁ ht => ?_
    rw [ht.1]
    simp only [listEnd, Bool.false_eq_true, if_false, leads_bind, leads_pure]
    exact ht.2.leads_skip.mono fun _ e'' he'' => ⟨trivial, he''⟩

/-- The key of an entry. -/
theorem leads_meet_key {value : Text} {plain : Bool}
    (h : Offers b N e goals (.key :: .scalar value plain :: ks)) :
    Leads b (meet (keyGoal flow opened true)) e fun ev e' =>
      (∃ m, ev = .scalar { start := m } value plain) ∧
        Offers b N e' (valueGoal flow opened :: goals) ks := by
  cases flow with
  | true =>
    show Leads b (flowKey opened true) e _
    unfold flowKey flowNext
    simp only [leads_bind]
    refine h.leads_peek.mono fun t e₁ ht => ?_
    simp only [Bool.or_true, if_true, leads_pure, ht.1, leads_bind]
    refine ht.2.leads_skipAndPeek.mono fun u e₂ hu => ?_
    have hoffers := hu.2.offers_of hu.1
    simp only [hu.1]
    exact leads_node_scalar (hoffers.push _)
  | false =>
    show Leads b (blockKey opened) e _
    unfold blockKey
    rw [leads_bind]
    refine h.leads_peek.mono fun t e₁ ht => ?_
    simp only [ht.1, leads_bind]
    refine ht.2.leads_skipAndPeek.mono fun u e₂ hu => ?_
    have hoffers := hu.2.offers_of hu.1
    simp only [hu.1]
    exact leads_node_scalar (hoffers.push _)

/-- The operand of an entry. -/
theorem leads_meet_value {Q : Event → EventStream → Prop} (h : Offers b N e goals (.value :: k :: ks))
    (hk : opensNode k = true)
    (hgo : ∀ {e' : EventStream}, Offers b N e' (keyGoal flow opened false :: goals) (k :: ks) →
      Leads b (node (!flow) (!flow)) e' Q) :
    Leads b (meet (valueGoal flow opened)) e Q := by
  cases flow with
  | true =>
    show Leads b (flowValue opened) e Q
    unfold flowValue
    rw [leads_bind]
    refine h.leads_peek.mono fun t e₁ ht => ?_
    simp only [ht.1, leads_bind]
    refine ht.2.leads_skipAndPeek.mono fun u e₂ hu => ?_
    have hoffers := hu.2.offers_of hu.1
    split
    · rename_i heq
      exact absurd (hu.1.symm.trans heq) (ne_of_opensNode hk rfl)
    · rename_i heq
      exact absurd (hu.1.symm.trans heq) (ne_of_opensNode hk rfl)
    · exact hgo (hoffers.push _)
  | false =>
    show Leads b (blockValue opened) e Q
    unfold blockValue
    rw [leads_bind]
    refine h.leads_peek.mono fun t e₁ ht => ?_
    simp only [ht.1, leads_bind]
    refine ht.2.leads_skipAndPeek.mono fun u e₂ hu => ?_
    have hoffers := hu.2.offers_of hu.1
    split
    · rename_i heq
      exact absurd (hu.1.symm.trans heq) (ne_of_opensNode hk rfl)
    · rename_i heq
      exact absurd (hu.1.symm.trans heq) (ne_of_opensNode hk rfl)
    · rename_i heq
      exact absurd (hu.1.symm.trans heq) (ne_of_opensNode hk rfl)
    · exact hgo (hoffers.push _)

/-- The end of an entry. -/
theorem leads_meet_entryEnd {first : Bool} (h : Offers b N e goals (entryEnd flow :: ks)) :
    Leads b (meet (keyGoal flow opened first)) e fun ev e' =>
      ev = .mappingEnd ∧ Offers b N e' goals ks := by
  cases flow with
  | true =>
    show Leads b (flowKey opened first) e _
    unfold flowKey flowNext
    simp only [leads_bind]
    refine h.leads_peek.mono fun t e₁ ht => ?_
    have hkind : t.kind = .flowMappingEnd := ht.1
    have ht' := ht.2.noHeads
    simp only [hkind, beq_self_eq_true, Bool.true_or, if_true, leads_pure, leads_bind, leads_attachHeads]
    exact ht'.leads_skip.mono fun _ e'' he'' => ⟨trivial, he''⟩
  | false =>
    show Leads b (blockKey opened) e _
    unfold blockKey
    rw [leads_bind]
    refine h.leads_peek.mono fun t e₁ ht => ?_
    have ht' := ht.2.noHeads
    rw [ht.1]
    simp only [entryEnd, Bool.false_eq_true, if_false, leads_bind, leads_attachHeads, leads_pure]
    exact ht'.leads_skip.mono fun _ e'' he'' => ⟨trivial, he''⟩

end Collections

/-! ## Documents -/

section Documents

variable {b : Prop} {N : Nat} {e : EventStream} {goals : List Goal} {k : TokenKind} {ks : List TokenKind}

/-- The meanings of tag handles do not matter. -/
theorem Offers.leads_addDefaultHandles (h : Offers b N e goals ks) :
    Leads b addDefaultHandles e fun _ e' => Offers b N e' goals ks := by
  unfold addDefaultHandles
  rw [leads_modify]
  exact ⟨h.heads, h.goals_eq, h.yields⟩

theorem Offers.leads_releaseHeads (h : Offers b N e goals ks) :
    Leads b releaseHeads e fun _ e' => Offers b N e' goals ks := by
  unfold releaseHeads
  rw [leads_modify, h.heads]
  exact h

theorem inside_of_opensNode (hk : opensNode k = true) :
    isOutsideDocument k = false ∧ (k == .documentEnd) = false := by
  cases k with
  | versionDirective | tagDirective | documentStart | streamEnd | documentEnd => cases hk
  | _ => exact ⟨rfl, rfl⟩

/-- The first document starts with its root. -/
theorem leads_meet_first (h : Offers b N e goals (k :: ks)) (hk : opensNode k = true) :
    Leads b (meet (.document true)) e fun ev e' =>
      ev = .documentStart ∧ Offers b N e' (.blockNode :: .documentEnd :: goals) (k :: ks) := by
  show Leads b (document true) e _
  unfold document
  simp only [leads_bind, leads_get, Bool.not_true, Bool.false_eq_true, if_false]
  refine h.leads_peek.mono fun t e₁ ht => ?_
  have hinside : isOutsideDocument t.kind = false := by
    rw [ht.1]
    exact (inside_of_opensNode hk).1
  have hoffers := ht.2.offers_of ht.1
  simp only [hinside, Bool.not_false, Bool.and_self, if_true, leads_bind, leads_push, leads_pure]
  refine hoffers.leads_addDefaultHandles.mono fun _ e₂ h₂ => ?_
  refine h₂.leads_releaseHeads.mono fun _ e₃ h₃ => ?_
  exact ⟨trivial, (h₃.push _).push _⟩

/-- The end of a document is not marked. -/
theorem leads_meet_documentEnd (h : Offers b N e goals (k :: ks)) (hk : k ≠ .documentEnd) :
    Leads b (meet .documentEnd) e fun ev e' =>
      ev = .documentEnd ∧ Offers b N e' (.document false :: goals) (k :: ks) := by
  show Leads b documentEnd e _
  unfold documentEnd
  simp only [leads_bind]
  refine h.leads_peek.mono fun t e₁ ht => ?_
  have hkind : (t.kind == .documentEnd) = false := by
    rw [ht.1]
    exact beq_eq_false_iff_ne.2 hk
  have hoffers := ht.2.offers_of ht.1
  simp only [hkind, Bool.false_eq_true, if_false]
  exact ⟨rfl, rfl, congrArg (_ :: ·) hoffers.goals_eq, hoffers.yields⟩

theorem leads_skipDocumentEnds (h : Offers b N e goals (k :: ks)) (hk : k ≠ .documentEnd) (fuel : Nat) :
    Leads b (skipDocumentEnds (fuel + 1)) e fun _ e' => Offers b N e' goals (k :: ks) := by
  unfold skipDocumentEnds
  rw [leads_bind]
  refine h.leads_peek.mono fun t e₁ ht => ?_
  have hkind : (t.kind == .documentEnd) = false := by
    rw [ht.1]
    exact beq_eq_false_iff_ne.2 hk
  rw [hkind, if_neg Bool.false_ne_true, leads_pure]
  exact ht.2.offers_of ht.1

/-- No directive stands in front of a document. -/
theorem leads_directives (h : Offers b N e goals (.documentStart :: ks)) (fuel : Nat) :
    Leads b (directives (fuel + 1) false) e fun _ e' => Offers b N e' goals (.documentStart :: ks) := by
  unfold directives
  rw [leads_bind]
  refine h.leads_peek.mono fun t e₁ ht => ?_
  rw [ht.1]
  exact (ht.2.offers_of ht.1).leads_addDefaultHandles

theorem exists_bound (h : Offers b N e goals ks) : ∃ fuel, e.tokens.cursor.bound = fuel + 1 := by
  obtain ⟨_, _, _, _, _, hs⟩ := h.sound
  have hroom := hs.shows.room
  exact ⟨e.tokens.cursor.bound - 1, by omega⟩

/-- Another document starts with a line of dashes. -/
theorem leads_meet_next (h : Offers b N e goals (.documentStart :: ks)) :
    Leads b (meet (.document false)) e fun ev e' =>
      ev = .documentStart ∧ Offers b N e' (.documentContent :: .documentEnd :: goals) ks := by
  obtain ⟨fuel, hfuel⟩ := exists_bound h
  show Leads b (document false) e _
  unfold document
  simp only [leads_bind, leads_get, hfuel, Bool.not_false, if_true, Bool.false_and, Bool.false_eq_true,
    if_false]
  refine (leads_skipDocumentEnds h (by decide) fuel).mono fun _ e₁ h₁ => ?_
  refine h₁.leads_peek.mono fun t e₂ ht => ?_
  have hend : (t.kind == .streamEnd) = false := by rw [ht.1]; rfl
  simp only [hend, Bool.false_eq_true, if_false, leads_bind]
  refine (leads_directives (ht.2.offers_of ht.1) fuel).mono fun _ e₃ h₃ => ?_
  refine h₃.leads_peek.mono fun u e₄ hu => ?_
  have hstart : (u.kind != .documentStart) = false := by rw [hu.1]; rfl
  simp only [hstart, Bool.false_eq_true, if_false, leads_bind, leads_push, leads_pure]
  exact hu.2.leads_skip.mono fun _ e₅ h₅ => ⟨trivial, (h₅.push _).push _⟩

/-- The stream ends. -/
theorem leads_meet_streamEnd (h : Offers b N e goals (.streamEnd :: ks)) :
    Leads b (meet (.document false)) e fun ev e' => ev = .streamEnd ∧ Offers b N e' goals ks := by
  obtain ⟨fuel, hfuel⟩ := exists_bound h
  show Leads b (document false) e _
  unfold document
  simp only [leads_bind, leads_get, hfuel, Bool.not_false, if_true, Bool.false_and, Bool.false_eq_true,
    if_false]
  refine (leads_skipDocumentEnds h (by decide) fuel).mono fun _ e₁ h₁ => ?_
  refine h₁.leads_peek.mono fun t e₂ ht => ?_
  have hend : (t.kind == .streamEnd) = true := by rw [ht.1]; rfl
  simp only [hend, if_true, leads_bind, leads_pure]
  exact ht.2.leads_skip.mono fun _ e₃ h₃ => ⟨trivial, h₃⟩

/-- A document with a line of dashes in front starts with its root. -/
theorem leads_meet_content {Q : Event → EventStream → Prop} (h : Offers b N e goals (k :: ks))
    (hk : opensNode k = true)
    (hgo : ∀ {e' : EventStream}, Offers b N e' goals (k :: ks) → Leads b (node true false) e' Q) :
    Leads b (meet .documentContent) e Q := by
  show Leads b documentContent e Q
  unfold documentContent
  rw [leads_bind]
  refine h.leads_peek.mono fun t e₁ ht => ?_
  obtain ⟨hinside, hend⟩ := inside_of_opensNode hk
  rw [ht.1, hinside, hend, Bool.or_self, if_neg Bool.false_ne_true]
  exact hgo (ht.2.offers_of ht.1)

/-- The event of the goal on top. -/
theorem leads_next {g : Goal} {Q : Event → EventStream → Prop} (h : Offers b N e (g :: goals) ks)
    (hmeet : ∀ {e' : EventStream}, Offers b N e' goals ks → Leads b (meet g) e' fun ev e'' =>
      Sound N e''.tokens ∧ Q ev e'') :
    Leads b next e Q := by
  unfold next
  simp only [leads_bind, leads_get, h.goals_eq, leads_set]
  have h' : Offers b N { e with goals := goals } goals ks := ⟨h.heads, rfl, h.yields⟩
  refine (hmeet h').mono fun ev e'' he'' => ?_
  obtain ⟨⟨_, _, _, _, _, hs⟩, hq⟩ := he''
  rw [hs.shows.trouble]
  exact hq

/-- The first event, given how the first token is looked at. -/
theorem leads_next_stream (hgoals : e.goals = [.stream]) (hheads : e.heads = [])
    (hpeek : Leads b TokenStream.peek e.tokens fun t s => t.kind = .streamStart ∧ Holds b N s t ks) :
    Leads b next e fun ev e' => ev = .streamStart ∧ Offers b N e' [.document true] ks := by
  unfold next
  simp only [leads_bind, leads_get, hgoals, leads_set]
  show Leads b stream { e with goals := [] } _
  unfold stream peek
  simp only [leads_bind, leads_scanning]
  refine hpeek.mono fun t tokens ht => ?_
  refine TokenStream.leads_claim ht.2.yields.sound t ?_
  have hstart : (t.kind != .streamStart) = false := by rw [ht.1]; rfl
  simp only [leads_modify, leads_pure, List.filter_nil, List.reverse_nil, List.nil_append, hstart,
    Bool.false_eq_true, if_false, leads_bind, leads_push]
  have hshown : Shown b N { e with tokens := tokens, goals := [] } [] t ks := ⟨hheads, rfl, ht.2⟩
  refine hshown.leads_skip.mono fun _ e' he' => ?_
  obtain ⟨_, _, _, _, _, hs⟩ := he'.sound
  rw [hs.shows.trouble]
  exact ⟨rfl, he'.push _⟩

end Documents

end TreeLang.Yaml.EventStream
