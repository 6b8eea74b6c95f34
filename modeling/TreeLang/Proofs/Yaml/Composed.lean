import TreeLang.Proofs.Yaml.EventRules
import TreeLang.Proofs.Yaml.LayoutTokens
import TreeLang.Yaml.Document

/-!
# The nodes of a layout

The tokens of a layout are composed to the node of that layout, up to the places of its parts. The
statements have what comes behind as a hypothesis, like those about tokens: once the node of the
layout is complete, composing goes on with it inside the collections that are open.
-/

set_option autoImplicit false

namespace TreeLang.Yaml.DocumentStream

open EventStream (Offers itemGoal keyGoal valueGoal opensNode)
open Layout (listStart listEnd entryStart entryEnd itemMark)
open TokenStream (Sound)

/-! ## Rules -/

/-- Run from `st`, a function reaches an answer and a stream that satisfy `Q`, or fails if `b`. -/
def Outcome (b : Prop) {α : Type} (x : Compose α) (st : DocumentStream) (Q : α → DocumentStream → Prop) :
    Prop :=
  match x.run st with
  | .ok (a, st') => Q a st'
  | .error _ => b

section Rules

variable {b : Prop} {α β : Type} {st : DocumentStream} {Q : α → DocumentStream → Prop}

/-- Where something holds, what follows from it holds. -/
theorem Outcome.mono {x : Compose α} {P : α → DocumentStream → Prop} (h : Outcome b x st P)
    (hpq : ∀ a st', P a st' → Q a st') : Outcome b x st Q := by
  unfold Outcome at h ⊢
  split at h
  · exact hpq _ _ h
  · exact h

@[simp] theorem outcome_pure (a : α) : Outcome b (pure a) st Q ↔ Q a st := Iff.rfl

/-- Two computations one after the other end where the second one does, from where the first one
ends. -/
@[simp] theorem outcome_bind (x : Compose β) (f : β → Compose α) :
    Outcome b (x >>= f) st Q ↔ Outcome b x st fun a st' => Outcome b (f a) st' Q := by
  unfold Outcome
  rw [StateT.run_bind]
  cases x.run st <;> exact Iff.rfl

@[simp] theorem outcome_get {Q : DocumentStream → DocumentStream → Prop} :
    Outcome b get st Q ↔ Q st st := Iff.rfl

@[simp] theorem outcome_modify {Q : PUnit → DocumentStream → Prop} (f : DocumentStream → DocumentStream) :
    Outcome b (modify f) st Q ↔ Q ⟨⟩ (f st) := Iff.rfl

@[simp] theorem outcome_nextEvent {Q : Event → DocumentStream → Prop} :
    Outcome b nextEvent st Q ↔ Leads b EventStream.next st.events fun ev events =>
      Q ev { st with events := events } := by
  unfold Outcome nextEvent Leads
  simp only [StateT.run_bind, StateT.run_get, pure_bind]
  cases EventStream.next st.events <;> exact Iff.rfl

end Rules

/-! ## One event -/

/-- Go on with a node that is complete inside the collections `opened`. -/
def finish (fuel : Nat) (n : Node) : List Open → Compose Node
  | [] => pure n
  | c :: outer => readNode fuel (add n c :: outer)

/-- What is done with an event. -/
def proceed (fuel : Nat) (opened : List Open) (ev : Event) : Compose Node := do
  match ← effect ev, opened with
  | .opens c, _ => readNode fuel (c :: opened)
  | .node n, [] => return n
  | .node n, c :: outer => readNode fuel (add n c :: outer)
  | .closes, c :: outer =>
    let (n, number) := close c
    settle number n
    match outer with
    | [] => return n
    | d :: rest => readNode fuel (add n d :: rest)
  | _, _ => throw .exhausted

/-- A node is read by taking an event and going on with it. -/
theorem readNode_succ (fuel : Nat) (opened : List Open) :
    readNode (fuel + 1) opened = nextEvent >>= proceed fuel opened := rfl

section Events

variable {fuel : Nat} {opened : List Open} {m : Mark}

theorem proceed_scalar {value : Text} {plain : Bool} :
    proceed fuel opened (.scalar { start := m } value plain) =
      finish fuel (.scalar m.place (scalarTag value plain) value) opened := by
  cases opened <;> rfl

theorem proceed_sequenceStart {flow : Bool} :
    proceed fuel opened (.sequenceStart { start := m } flow) =
      readNode fuel (.sequence m.place Tag.seq flow none [] :: opened) := by
  cases opened <;> rfl

theorem proceed_mappingStart {flow : Bool} :
    proceed fuel opened (.mappingStart { start := m } flow) =
      readNode fuel (.mapping m.place Tag.map flow none [] none :: opened) := by
  cases opened <;> rfl

theorem proceed_sequenceEnd {p : Place} {tag : Text} {flow : Bool} {items : List Node} :
    proceed fuel (.sequence p tag flow none items :: opened) .sequenceEnd =
      finish fuel (.sequence p tag flow items.reverse) opened := by
  cases opened <;> rfl

theorem proceed_mappingEnd {p : Place} {tag : Text} {flow : Bool} {entries : List (Node × Node)}
    {key : Option Node} :
    proceed fuel (.mapping p tag flow none entries key :: opened) .mappingEnd =
      finish fuel (.mapping p tag flow entries.reverse) opened := by
  cases opened <;> rfl

end Events

/-- Read a document of a stream that has started. -/
def document? : Compose (Option Document) := do
  match ← nextEvent with
  | .documentStart =>
    let root ← readNode (eventBound (← get).events.tokens.cursor.bound) []
    let _ ← nextEvent
    return some ⟨root, (← get).anchors⟩
  | _ => return none

theorem next?_eq : next? = (do
    if !(← get).started then
      let _ ← nextEvent
      modify fun s => { s with started := true }
    document?) := rfl

end TreeLang.Yaml.DocumentStream

/-! ## Nodes -/

namespace TreeLang.Yaml.Layout

open DocumentStream
open EventStream (Offers itemGoal keyGoal valueGoal opensNode)
open TokenStream (Sound maxDepth)

mutual

/-- Whether a node is the one of a layout, up to places and the forms of collections. -/
def Composes : Layout → Node → Prop
  | .scalar style cs, n =>
    ∃ p, n = .scalar p (scalarTag (Utf8.encode cs) (style == .plain)) (Utf8.encode cs)
  | .list _ items, n => ∃ p flow ns, n = .sequence p Tag.seq flow ns ∧ ComposesAll items ns
  | .entry _ key d, n => ∃ p flow q v, n = .mapping p Tag.map flow
      [(.scalar q (scalarTag (Utf8.encode key) true) (Utf8.encode key), v)] ∧ Composes d v

/-- Whether nodes are those of layouts. -/
def ComposesAll : List Layout → List Node → Prop
  | [], ns => ns = []
  | d :: ds, ns => ∃ n ns', ns = n :: ns' ∧ Composes d n ∧ ComposesAll ds ns'

end

mutual

/-- The number of events of a layout behind the first one. -/
def cost : Layout → Nat
  | .scalar _ _ => 0
  | .list _ items => costAll items
  | .entry _ _ d => cost d + 3

/-- The number of events of items and of the end behind them. -/
def costAll : List Layout → Nat
  | [] => 1
  | d :: ds => cost d + 1 + costAll ds

end

/-- The first token of a layout opens a node. -/
theorem exists_kinds (d : Layout) : ∃ k ks, d.kinds = k :: ks ∧ opensNode k = true := by
  cases d with
  | scalar style cs => exact ⟨_, _, by rw [kinds], rfl⟩
  | list flow items => exact ⟨_, _, by rw [kinds], by cases flow <;> rfl⟩
  | entry flow key d => exact ⟨_, _, by rw [kinds], by cases flow <;> rfl⟩

/-- The tokens of a layout lead to a node of the layout. -/
def Composed (b : Prop) (N : Nat) (d : Layout) : Prop :=
  ∀ ⦃e : EventStream⦄ ⦃goals : List Goal⦄ ⦃ks : List TokenKind⦄ ⦃block indentless : Bool⦄ ⦃fuel : Nat⦄
    ⦃opened : List Open⦄ ⦃st : DocumentStream⦄ ⦃Q : Node → DocumentStream → Prop⦄,
    (d.isBlock = true → block = true) → Offers b N e goals (d.kinds ++ ks) →
    (∀ {n : Node} {e' : EventStream}, d.Composes n → Offers b N e' goals ks →
      Outcome b (finish fuel n opened) { st with events := e' } Q) →
    Leads b (EventStream.node block indentless) e fun ev e' => Sound N e'.tokens ∧
      Outcome b (proceed (d.cost + fuel) opened ev) { st with events := e' } Q

section Composed

variable {b : Prop} {N : Nat}

/-- A scalar is composed from its event. -/
theorem composed_scalar (style : Style) (cs : List Char) : Composed b N (.scalar style cs) := by
  intro e goals ks block indentless fuel opened st Q _ h hgo
  rw [kinds] at h
  refine (EventStream.leads_node_scalar h).mono fun ev e' he' => ?_
  obtain ⟨⟨m, rfl⟩, hoffers⟩ := he'
  refine ⟨hoffers.sound, ?_⟩
  rw [proceed_scalar, cost, Nat.zero_add]
  exact hgo ⟨m.place, rfl⟩ hoffers

/-- The items of a list are composed one after the other. -/
theorem outcome_items {flow tagged : Bool} {opened : Mark} {goals : List Goal} {ks : List TokenKind}
    {fuel : Nat} {outer : List Open} {st : DocumentStream} {p : Place}
    {Q : Node → DocumentStream → Prop} (ds : List Layout) :
    ∀ {e : EventStream} {first : Bool} {acc : List Node}, (∀ d ∈ ds, Composed b N d) →
      (∀ d ∈ ds, d.isBlock = true → flow = false) →
      Offers b N e (itemGoal flow opened first :: goals) (itemsKinds flow first ds ++ listEnd flow :: ks) →
      (∀ (ns : List Node) {e' : EventStream}, ComposesAll ds ns → Offers b N e' goals ks →
        Outcome b (finish fuel (.sequence p Tag.seq tagged (acc.reverse ++ ns)) outer)
          { st with events := e' } Q) →
      Outcome b (readNode (costAll ds + fuel) (.sequence p Tag.seq tagged none acc :: outer))
        { st with events := e } Q := by
  induction ds with
  | nil =>
    intro e first acc _ _ h hgo
    rw [itemsKinds, List.nil_append] at h
    rw [costAll, Nat.add_comm, readNode_succ, outcome_bind, outcome_nextEvent]
    refine EventStream.leads_next h fun h₁ => (EventStream.leads_meet_listEnd h₁).mono fun ev e' he' => ?_
    obtain ⟨rfl, hoffers⟩ := he'
    refine ⟨hoffers.sound, ?_⟩
    rw [proceed_sequenceEnd]
    have hdone := hgo [] rfl hoffers
    rwa [List.append_nil] at hdone
  | cons d ds ih =>
    intro e first acc hall hblock h hgo
    obtain ⟨k, ks', hk, hopens⟩ := exists_kinds d
    rw [itemsKinds, List.append_assoc, List.append_assoc, hk, List.cons_append] at h
    have hcost : costAll (d :: ds) + fuel = (d.cost + (costAll ds + fuel)) + 1 := by
      rw [costAll]
      omega
    rw [hcost, readNode_succ, outcome_bind, outcome_nextEvent]
    refine EventStream.leads_next h fun h₁ => EventStream.leads_meet_item h₁ hopens fun {e₂} h₂ => ?_
    -- the first kind was split off to see that an item starts, and goes back
    rw [← List.cons_append, ← hk] at h₂
    refine hall d List.mem_cons_self (fun hb => ?_) h₂ fun {n e'} hn he' => ?_
    · rw [hblock d List.mem_cons_self hb]
      rfl
    · show Outcome b (readNode (costAll ds + fuel) (.sequence p Tag.seq tagged none (n :: acc) :: outer)) _ Q
      refine ih (fun d' hd' => hall d' (List.mem_cons_of_mem _ hd'))
        (fun d' hd' => hblock d' (List.mem_cons_of_mem _ hd')) he' fun ns {e''} hns he'' => ?_
      have hdone := hgo (n :: ns) ⟨n, ns, rfl, hn, hns⟩ he''
      rwa [List.reverse_cons, List.append_assoc]

/-- A list is composed if its items are. -/
theorem composed_list {flow : Bool} {items : List Layout} (hall : ∀ d ∈ items, Composed b N d)
    (hblock : ∀ d ∈ items, d.isBlock = true → flow = false) : Composed b N (.list flow items) := by
  intro e goals ks block indentless fuel opened st Q hstyle h hgo
  rw [kinds, List.cons_append, List.append_assoc] at h
  refine (EventStream.leads_node_list (fun hf => hstyle (by rw [hf]; rfl)) h).mono fun ev e' he' => ?_
  obtain ⟨m, start, rfl, hoffers⟩ := he'
  refine ⟨hoffers.sound, ?_⟩
  rw [proceed_sequenceStart, cost]
  refine outcome_items items hall hblock hoffers fun ns {e''} hns he'' => ?_
  exact hgo ⟨m.place, flow, ns, rfl, hns⟩ he''

/-- An entry is composed if its operand is. -/
theorem composed_entry {flow : Bool} {key : List Char} {d : Layout} (hd : Composed b N d)
    (hblock : d.isBlock = true → flow = false) : Composed b N (.entry flow key d) := by
  intro e goals ks block indentless fuel opened st Q hstyle h hgo
  obtain ⟨k, ks', hk, hopens⟩ := exists_kinds d
  rw [kinds, List.cons_append, List.cons_append, List.cons_append, List.cons_append, List.append_assoc,
    hk, List.cons_append] at h
  refine (EventStream.leads_node_entry (fun hf => hstyle (by rw [hf]; rfl)) h).mono fun ev e₁ he₁ => ?_
  obtain ⟨m, start, rfl, h₁⟩ := he₁
  refine ⟨h₁.sound, ?_⟩
  have hcost : (Layout.entry flow key d).cost + fuel = (d.cost + (fuel + 1) + 1) + 1 := by
    rw [cost]
    omega
  rw [proceed_mappingStart, hcost, readNode_succ, outcome_bind, outcome_nextEvent]
  refine EventStream.leads_next h₁ fun h₂ => (EventStream.leads_meet_key h₂).mono fun ev e₃ he₃ => ?_
  obtain ⟨⟨q, rfl⟩, h₃⟩ := he₃
  refine ⟨h₃.sound, ?_⟩
  rw [proceed_scalar, finish, add, readNode_succ, outcome_bind, outcome_nextEvent]
  refine EventStream.leads_next h₃ fun h₄ => EventStream.leads_meet_value h₄ hopens fun {e₅} h₅ => ?_
  rw [← List.cons_append, ← hk] at h₅
  refine hd (fun hb => by rw [hblock hb]; rfl) h₅ fun {n e₆} hn h₆ => ?_
  rw [finish, add, readNode_succ, outcome_bind, outcome_nextEvent]
  refine EventStream.leads_next h₆ fun h₇ => (EventStream.leads_meet_entryEnd h₇).mono fun ev e₈ he₈ => ?_
  obtain ⟨rfl, h₈⟩ := he₈
  refine ⟨h₈.sound, ?_⟩
  rw [proceed_mappingEnd]
  exact hgo ⟨m.place, flow, q.place, n, rfl, hn⟩ h₈

mutual

/-- Every layout that fits is composed to its node. -/
theorem composed : (d : Layout) → ∀ {level : Nat}, d.Fits level → Composed b N d
  | .scalar style cs, _, _ => composed_scalar style cs
  | .list true items, level, hfits => by
    obtain ⟨-, hitems⟩ := (by rwa [Fits] at hfits : _ ∧ _)
    obtain ⟨hall, hblock⟩ := composedAll items hitems
    refine composed_list hall fun d hd hb => ?_
    rw [hblock (Nat.succ_ne_zero level) d hd] at hb
    cases hb
  | .list false items, level, hfits => by
    obtain ⟨-, -, hitems⟩ := (by rwa [Fits] at hfits : _ ∧ _ ∧ _)
    exact composed_list (composedAll items hitems).1 fun _ _ _ => rfl
  | .entry true key d, level, hfits => by
    obtain ⟨-, -, hd⟩ := (by rwa [Fits] at hfits : _ ∧ _ ∧ _)
    refine composed_entry (composed d hd) fun hb => ?_
    rw [isBlock_eq hd] at hb
    cases hb
  | .entry false key d, level, hfits => by
    obtain ⟨-, -, hd⟩ := (by rwa [Fits] at hfits : _ ∧ _ ∧ _)
    exact composed_entry (composed d hd) fun _ => rfl

theorem composedAll : (ds : List Layout) → ∀ {level : Nat}, FitsAll level ds →
    (∀ d ∈ ds, Composed b N d) ∧ (level ≠ 0 → ∀ d ∈ ds, d.isBlock = false)
  | [], _, _ => ⟨fun _ hd => absurd hd List.not_mem_nil, fun _ _ hd => absurd hd List.not_mem_nil⟩
  | d :: ds, level, hfits => by
    obtain ⟨hd, hds⟩ := (by rwa [FitsAll] at hfits : _ ∧ _)
    obtain ⟨hall, hblock⟩ := composedAll ds hds
    refine ⟨List.forall_mem_cons.2 ⟨composed d hd, hall⟩, fun hlevel => ?_⟩
    obtain ⟨level, rfl⟩ := Nat.exists_eq_succ_of_ne_zero hlevel
    exact List.forall_mem_cons.2 ⟨isBlock_eq hd, hblock hlevel⟩

end

mutual

/-- So is what is read back of it. -/
theorem composed_reread : (d : Layout) → d.Fits 0 → ∀ room, Composed b N (d.reread room)
  | .scalar style cs, _, room => by
    by_cases hliteral : style = .literal
    · subst hliteral
      rw [reread]
      split
      · exact composed_scalar _ _
      · exact composed_scalar _ _
    · rw [reread_scalar room cs hliteral]
      exact composed_scalar _ _
  | .list true items, hfits, room => by
    rw [reread_flow room rfl (by nofun)]
    exact composed _ hfits
  -- a block collection that is too deep for the room left is read as an empty scalar
  | .list false items, hfits, 0 => by
    rw [reread]
    exact composed_scalar _ _
  | .list false items, hfits, room + 1 => by
    obtain ⟨-, -, hitems⟩ := (by rwa [Fits] at hfits : _ ∧ _ ∧ _)
    rw [reread]
    exact composed_list (composed_rereadAll items hitems room) fun _ _ _ => rfl
  | .entry true key d, hfits, room => by
    rw [reread_flow room rfl (by nofun)]
    exact composed _ hfits
  | .entry false key d, hfits, 0 => by
    rw [reread]
    exact composed_scalar _ _
  | .entry false key d, hfits, room + 1 => by
    obtain ⟨-, -, hd⟩ := (by rwa [Fits] at hfits : _ ∧ _ ∧ _)
    rw [reread]
    exact composed_entry (composed_reread d hd room) fun _ => rfl

theorem composed_rereadAll : (ds : List Layout) → FitsAll 0 ds → ∀ room, ∀ d ∈ rereadAll room ds,
    Composed b N d
  | [], _, _ => fun _ hd => by
    rw [rereadAll] at hd
    exact absurd hd List.not_mem_nil
  | d :: ds, hfits, room => by
    obtain ⟨hd, hds⟩ := (by rwa [FitsAll] at hfits : _ ∧ _)
    rw [rereadAll]
    exact List.forall_mem_cons.2 ⟨composed_reread d hd room, composed_rereadAll ds hds room⟩

end

end Composed

/-! ## The number of events -/

mutual

/-- There are no more events than characters. -/
theorem cost_lt_line : (d : Layout) → ∀ {level : Nat} (indent : Nat), d.Fits level →
    d.cost < (line indent d).length
  | .scalar style cs, _, indent, hfits => by
    rw [Fits] at hfits
    rw [cost, line]
    exact length_scalar_pos hfits indent
  | .list flow items, _, indent, hfits => by
    obtain ⟨inner, hitems⟩ := hfits.items
    have hle := costAll_le_lineItems items (indent + 2) true hitems
    rw [cost, line, List.length_cons, List.length_append, List.length_singleton]
    omega
  | .entry flow key d, _, indent, hfits => by
    obtain ⟨hkey, inner, hd⟩ := hfits.entry
    have hlt := cost_lt_line d (indent + 2) hd
    have hpos := List.length_pos_iff.2 hkey.ne
    rw [cost, line]
    simp only [List.length_cons, List.length_append, List.length_nil]
    omega

theorem costAll_le_lineItems : (ds : List Layout) → ∀ {level : Nat} (indent : Nat) (first : Bool),
    FitsAll level ds → costAll ds ≤ (lineItems indent first ds).length + 1
  | [], _, _, _, _ => Nat.le_refl 1
  | d :: ds, _, indent, first, hfits => by
    obtain ⟨hd, hds⟩ := (by rwa [FitsAll] at hfits : _ ∧ _)
    have hlt := cost_lt_line d indent hd
    have hle := costAll_le_lineItems ds indent false hds
    rw [costAll, lineItems]
    simp only [List.length_append]
    omega

end

mutual

/-- A layout over several lines takes fewer events than characters. -/
theorem cost_lt_lines : (d : Layout) → ∀ (indent : Nat), d.Fits 0 → d.cost < (lines indent d).length
  | .list false items, indent, hfits => by
    obtain ⟨-, hne, hitems⟩ := (by rwa [Fits] at hfits : _ ∧ _ ∧ _)
    obtain ⟨d, ds, rfl⟩ := List.exists_cons_of_ne_nil hne
    obtain ⟨hd, hds⟩ := (by rwa [FitsAll] at hitems : _ ∧ _)
    have hlt := cost_lt_lines d (indent + 2) hd
    have hle := costAll_le_linesItems ds indent hds
    rw [cost, costAll, lines, linesItems]
    simp only [List.length_append, List.length_cons]
    omega
  | .entry false key d, indent, hfits => by
    obtain ⟨-, hkey, hd⟩ := (by rwa [Fits] at hfits : _ ∧ _ ∧ _)
    have hlt := cost_lt_lines d (indent + 2) hd
    have hpos := List.length_pos_iff.2 hkey.ne
    have hgap : 0 < (gap (indent + 2) d).length := by
      unfold gap
      split <;> exact Nat.succ_pos _
    rw [cost, lines]
    simp only [List.length_cons, List.length_append]
    omega
  | .scalar style cs, indent, hfits => by
    have hlt := cost_lt_line (.scalar style cs) indent hfits
    rw [lines_leaf rfl, List.length_append]
    omega
  | .list true items, indent, hfits => by
    have hlt := cost_lt_line (.list true items) indent hfits
    rw [lines_leaf rfl, List.length_append]
    omega
  | .entry true key d, indent, hfits => by
    have hlt := cost_lt_line (.entry true key d) indent hfits
    rw [lines_leaf rfl, List.length_append]
    omega

theorem costAll_le_linesItems : (ds : List Layout) → ∀ (indent : Nat), FitsAll 0 ds →
    costAll ds ≤ (linesItems indent false ds).length + 1
  | [], _, _ => Nat.le_refl 1
  | d :: ds, indent, hfits => by
    obtain ⟨hd, hds⟩ := (by rwa [FitsAll] at hfits : _ ∧ _)
    have hlt := cost_lt_lines d (indent + 2) hd
    have hle := costAll_le_linesItems ds indent hds
    rw [costAll, linesItems]
    simp only [List.length_append, List.length_cons]
    omega

end

mutual

/-- What is read back takes no more events than what is written. -/
theorem cost_reread_le : (d : Layout) → ∀ room, (d.reread room).cost ≤ d.cost
  | .scalar style cs, room => by
    by_cases hliteral : style = .literal
    · subst hliteral
      rw [reread]
      split <;> exact Nat.le_refl 0
    · exact Nat.le_of_eq (congrArg cost (reread_scalar room cs hliteral))
  | .list true items, room => Nat.le_of_eq (congrArg cost (reread_flow room rfl nofun))
  | .list false items, 0 => by
    rw [reread]
    exact Nat.zero_le _
  | .list false items, room + 1 => by
    rw [reread, cost, cost]
    exact costAll_rereadAll_le items room
  | .entry true key d, room => Nat.le_of_eq (congrArg cost (reread_flow room rfl nofun))
  | .entry false key d, 0 => by
    rw [reread]
    exact Nat.zero_le _
  | .entry false key d, room + 1 => by
    rw [reread, cost, cost]
    exact Nat.add_le_add_right (cost_reread_le d room) 3

theorem costAll_rereadAll_le : (ds : List Layout) → ∀ room, costAll (rereadAll room ds) ≤ costAll ds
  | [], _ => Nat.le_refl 1
  | d :: ds, room => by
    have hd := cost_reread_le d room
    have hds := costAll_rereadAll_le ds room
    rw [rereadAll, costAll, costAll]
    omega

end

/-- The root of a document has no more events than the bound allows. -/
theorem cost_page {d : Layout} (h : d.Fits 0) {N : Nat} (hN : (page d).length ≤ N) :
    ∃ fuel, eventBound N = (d.reread maxDepth).cost + fuel + 1 := by
  have hreread := cost_reread_le d maxDepth
  have hlines := cost_lt_lines d (if d.isBlock then 0 else 2) h
  unfold page at hN
  unfold eventBound
  exact ⟨32 * (N + 8) - ((d.reread maxDepth).cost + 1), by omega⟩

end TreeLang.Yaml.Layout

/-! ## Documents -/

namespace TreeLang.Yaml.DocumentStream

open EventStream (Offers opensNode)
open Layout (Composes)
open TokenStream (Sound maxDepth)

section Documents

variable {b : Prop} {N : Nat} {st : DocumentStream} {d : Layout} {k : TokenKind} {ks : List TokenKind}

/-- Where the goals are a document and its end, the root is read, and then the end. -/
theorem outcome_root {g : Goal} (hd : d.Fits 0) (hN : (Layout.page d).length ≤ N)
    (hk : k ≠ .documentEnd)
    (h : Offers b N st.events [g, .documentEnd] ((d.reread maxDepth).kinds ++ k :: ks))
    (hmeet : ∀ {e : EventStream} {Q : Event → EventStream → Prop},
      Offers b N e [.documentEnd] ((d.reread maxDepth).kinds ++ k :: ks) →
      (∀ {e' : EventStream}, Offers b N e' [.documentEnd] ((d.reread maxDepth).kinds ++ k :: ks) →
        Leads b (EventStream.node true false) e' Q) →
      Leads b (EventStream.meet g) e Q) :
    Outcome b (do
      let root ← readNode (eventBound (← get).events.tokens.cursor.bound) []
      let _ ← nextEvent
      return some (⟨root, (← get).anchors⟩ : Document)) st fun r st' => ∃ n,
        r = some ⟨n, st.anchors⟩ ∧ (d.reread maxDepth).Composes n ∧ st'.started = st.started ∧
          st'.anchors = st.anchors ∧ Offers b N st'.events [.document false] (k :: ks) := by
  obtain ⟨_, _, _, _, _, hs⟩ := h.sound
  -- the bound is counted in characters, of which there are enough
  obtain ⟨fuel, hfuel⟩ := Layout.cost_page hd hN
  simp only [outcome_bind, outcome_get, outcome_nextEvent, outcome_pure, hs.shows.bound, hfuel, readNode_succ]
  refine EventStream.leads_next h fun h₁ => hmeet h₁ fun {e₂} h₂ => ?_
  refine Layout.composed_reread d hd maxDepth (fun _ => rfl) h₂ fun {n e₃} hn h₃ => ?_
  rw [finish, outcome_pure]
  refine EventStream.leads_next h₃ fun h₄ => (EventStream.leads_meet_documentEnd h₄ hk).mono
    fun ev e₅ he₅ => ?_
  exact ⟨he₅.2.sound, n, rfl, hn, rfl, rfl, he₅.2⟩

/-- The stream is between documents, and a document with the root `n` has been read. -/
def Passed (b : Prop) (N : Nat) (anchors : Anchors) (d : Layout) (ks : List TokenKind)
    (r : Option Document) (st : DocumentStream) : Prop :=
  ∃ n, r = some ⟨n, anchors⟩ ∧ (d.reread maxDepth).Composes n ∧ st.started = true ∧
    st.anchors = anchors ∧ Offers b N st.events [.document false] ks

/-- The first document of a stream. -/
theorem outcome_first (hd : d.Fits 0) (hN : (Layout.page d).length ≤ N) (hk : k ≠ .documentEnd)
    (hstarted : st.started = false) (hgoals : st.events.goals = [.stream]) (hheads : st.events.heads = [])
    (hpeek : Leads b TokenStream.peek st.events.tokens fun t s => t.kind = .streamStart ∧
      TokenStream.Holds b N s t ((d.reread maxDepth).kinds ++ k :: ks)) :
    Outcome b next? st (Passed b N st.anchors d (k :: ks)) := by
  obtain ⟨k₀, ks₀, hkinds, hopens⟩ := Layout.exists_kinds (d.reread maxDepth)
  unfold next?
  rw [outcome_bind, outcome_get, hstarted, Bool.not_false, if_pos rfl, outcome_bind, outcome_nextEvent]
  refine (EventStream.leads_next_stream hgoals hheads hpeek).mono fun ev e₁ he₁ => ?_
  obtain ⟨-, h₁⟩ := he₁
  rw [hkinds, List.cons_append] at h₁
  rw [outcome_bind, outcome_modify, outcome_bind, outcome_nextEvent]
  refine EventStream.leads_next h₁ fun h₂ => (EventStream.leads_meet_first h₂ hopens).mono fun ev e₃ he₃ => ?_
  obtain ⟨rfl, h₃⟩ := he₃
  refine ⟨h₃.sound, ?_⟩
  rw [← List.cons_append, ← hkinds] at h₃
  exact outcome_root (g := .blockNode) hd hN hk h₃ fun h hnode => hnode h

/-- A document after another. -/
theorem outcome_next (hd : d.Fits 0) (hN : (Layout.page d).length ≤ N) (hk : k ≠ .documentEnd)
    (hstarted : st.started = true)
    (h : Offers b N st.events [.document false] (.documentStart :: ((d.reread maxDepth).kinds ++ k :: ks))) :
    Outcome b next? st (Passed b N st.anchors d (k :: ks)) := by
  obtain ⟨k₀, ks₀, hkinds, hopens⟩ := Layout.exists_kinds (d.reread maxDepth)
  unfold next?
  rw [outcome_bind, outcome_get, hstarted, Bool.not_true, if_neg Bool.false_ne_true, outcome_bind,
    outcome_nextEvent]
  refine EventStream.leads_next h fun h₁ => (EventStream.leads_meet_next h₁).mono fun ev e₂ he₂ => ?_
  obtain ⟨rfl, h₂⟩ := he₂
  refine ⟨h₂.sound, ?_⟩
  refine Outcome.mono (outcome_root (g := .documentContent) hd hN hk h₂ fun {e Q} h hnode => ?_)
    fun _ _ hr => ?_
  · rw [hkinds, List.cons_append] at h hnode
    exact EventStream.leads_meet_content h hopens hnode
  · rw [hstarted] at hr
    exact hr

/-- The end of a stream. -/
theorem outcome_end (hstarted : st.started = true)
    (h : Offers b N st.events [.document false] (.streamEnd :: ks)) :
    Outcome b next? st fun r _ => r = none := by
  unfold next?
  rw [outcome_bind, outcome_get, hstarted, Bool.not_true, if_neg Bool.false_ne_true, outcome_bind,
    outcome_nextEvent]
  refine EventStream.leads_next h fun h₁ => (EventStream.leads_meet_streamEnd h₁).mono fun ev e₂ he₂ => ?_
  obtain ⟨rfl, h₂⟩ := he₂
  exact ⟨h₂.sound, rfl⟩

end Documents

end TreeLang.Yaml.DocumentStream
