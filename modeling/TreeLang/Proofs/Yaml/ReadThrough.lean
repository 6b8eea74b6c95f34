import TreeLang.Proofs.Yaml.Composed
import TreeLang.Proofs.Yaml.FlowBalance
import TreeLang.Tree.Stream

/-!
# Sources that are read to their end

A source whose documents have all been read has given out all its tokens, up to the end of the
stream, and its brackets are closed. Inside a document the goals of the grammar and the collections
that the document has open are as many (`Inside`), so that no goal is left once the root is
complete.
-/

set_option autoImplicit false

namespace TreeLang.Yaml

namespace EventStream

open TokenStream (handed)

variable {o : TokenStream} {gs : List Goal} {k : Int} {s : EventStream} {t : Token}

/-! ## Documents -/

theorem Taken.handles (h : Taken o gs k s) (handles : List (Text × Text)) :
    Taken o gs k { s with handles := handles } := ⟨h.reached, h.goals_eq⟩

theorem Showing.handles (h : Showing o gs k t s) (handles : List (Text × Text)) :
    Showing o gs k t { s with handles := handles } := ⟨h.toTaken.handles handles, h.looked⟩

theorem Taken.leads_skipDocumentEnds (h : Taken o gs k s) (fuel : Nat) :
    Leads True (skipDocumentEnds fuel) s fun _ s' => Taken o gs k s' := by
  induction fuel generalizing s with
  | zero => trivial
  | succ fuel ih =>
    unfold skipDocumentEnds
    rw [leads_bind]
    refine h.leads_peek.mono fun t s₁ ht => ?_
    split
    · rename_i hkind
      rw [leads_bind]
      refine (ht.leads_skip_unnoted (by rw [beq_iff_eq.1 hkind]; rfl)).mono fun _ s₂ hs₂ => ?_
      exact ih hs₂
    · exact ht.toTaken

/-- Directives are not noted, so taking them opens no bracket. -/
theorem Taken.leads_directives (h : Taken o gs k s) (fuel : Nat) (versioned : Bool) :
    Leads True (directives fuel versioned) s fun _ s' => Taken o gs k s' := by
  induction fuel generalizing s versioned with
  | zero => trivial
  | succ fuel ih =>
    unfold directives
    rw [leads_bind]
    refine h.leads_peek.mono fun t s₁ ht => ?_
    split
    · rename_i hkind
      have hgo : Leads True (skip >>= fun _ => directives fuel true) s₁ fun _ s' => Taken o gs k s' := by
        rw [leads_bind]
        exact (ht.leads_skip_unnoted (by rw [hkind]; rfl)).mono fun _ s₂ hs₂ => ih hs₂ true
      dsimp only
      split
      · trivial
      · split
        · trivial
        · exact hgo
    · rename_i handle uri hkind
      simp only [leads_bind, leads_get]
      split
      · trivial
      · simp only [leads_bind, leads_modify]
        refine ((ht.handles _).leads_skip_unnoted (by rw [hkind]; rfl)).mono fun _ s₂ hs₂ => ?_
        exact ih hs₂ versioned
    · exact ht.toTaken.handles _

/-- All tokens of the stream `o` have been taken, up to its end, and they open `k` more brackets
than they close. -/
def Ended (o : TokenStream) (k : Int) (s : EventStream) : Prop :=
  ∃ n ts t, handed n o = (ts ++ [t], s.tokens) ∧ t.kind = .streamEnd ∧
    (∀ u ∈ ts, u.kind ≠ .streamEnd) ∧ flowDepth ts = k

/-- A document has begun, with a goal for its root, or the stream has ended. -/
def Begins (o : TokenStream) (gs : List Goal) (k : Int) (e : Event) (s : EventStream) : Prop :=
  (e = .documentStart ∧ ∃ g, (g = .blockNode ∨ g = .documentContent) ∧
    Taken o (g :: .documentEnd :: gs) k s) ∨ (e = .streamEnd ∧ Ended o k s)

theorem Showing.leads_streamEnd (h : Showing o gs k t s) (ht : t.kind = .streamEnd) :
    Leads True (skip >>= fun _ => pure .streamEnd) s (Begins o gs k) := by
  obtain ⟨ts, hreached, hend, hdepth⟩ := h.reached
  obtain ⟨n, hn⟩ := hreached.handed_tail h.looked
  exact Or.inr ⟨rfl, n, ts, t, hn, ht, hend, hdepth⟩

/-- A document with a start marker, behind its directives. -/
theorem Taken.leads_marked (h : Taken o gs k s) (bound : Nat) :
    Leads True (do
      directives bound false
      let t ← peek
      if t.kind != .documentStart then failAt .noDocumentStart t.start
      skip
      EventStream.push .documentEnd
      EventStream.push .documentContent
      return .documentStart) s (Begins o gs k) := by
  simp only [leads_bind]
  refine (h.leads_directives bound false).mono fun _ s₁ hs₁ => ?_
  refine hs₁.leads_peek.mono fun t s₂ ht => ?_
  split
  · trivial
  · rename_i hkind
    have hstart : t.kind = .documentStart := by simpa using hkind
    simp only [leads_bind, leads_push]
    refine (ht.leads_skip_unnoted (by rw [hstart]; rfl)).mono fun _ s₃ hs₃ => ?_
    exact Or.inl ⟨rfl, _, Or.inr rfl, (hs₃.push _).push _⟩

/-- A document begins, with or without a marker, or the stream ends. -/
theorem Taken.leads_document (h : Taken o gs k s) (first : Bool) :
    Leads True (document first) s (Begins o gs k) := by
  unfold document
  cases first with
  | true =>
    simp only [leads_bind, leads_get, Bool.not_true, Bool.false_eq_true, if_false, Bool.true_and]
    refine h.leads_peek.mono fun t s₁ ht => ?_
    split
    · simp only [leads_bind, leads_push]
      unfold addDefaultHandles releaseHeads
      simp only [leads_modify]
      refine Or.inl ⟨rfl, _, Or.inl rfl, Taken.push (Taken.push ?_ _) _⟩
      split <;> exact ⟨ht.reached, ht.goals_eq⟩
    · split
      · rename_i hkind
        exact ht.leads_streamEnd (beq_iff_eq.1 hkind)
      · exact ht.toTaken.leads_marked _
  | false =>
    simp only [leads_bind, leads_get, Bool.not_false, if_true, Bool.false_and, Bool.false_eq_true,
      if_false]
    refine (h.leads_skipDocumentEnds _).mono fun _ s₁ hs₁ => ?_
    refine hs₁.leads_peek.mono fun t s₂ ht => ?_
    split
    · rename_i hkind
      exact ht.leads_streamEnd (beq_iff_eq.1 hkind)
    · exact ht.toTaken.leads_marked _

theorem Taken.leads_documentContent (h : Taken o gs k s) :
    Leads True documentContent s (Meets o gs k .documentContent) := by
  unfold documentContent
  rw [leads_bind]
  refine h.leads_peek.mono fun t s₁ ht => ?_
  split
  · exact ht.toTaken.meets_unnoted [] rfl rfl (le_refl _) rfl
  · exact ht.toTaken.leads_node true false

theorem Taken.leads_documentEnd (h : Taken o gs k s) :
    Leads True documentEnd s fun _ s' => Taken o (.document false :: gs) k s' := by
  unfold documentEnd
  rw [leads_bind]
  refine h.leads_peek.mono fun t s₁ ht => ?_
  split
  · rename_i hkind
    simp only [leads_bind, leads_attachHeads, leads_modify, leads_push]
    refine (ht.leads_skip_unnoted (by rw [beq_iff_eq.1 hkind]; rfl)).mono fun _ s₂ hs₂ => ?_
    exact ((hs₂.heads []).handles []).push _
  · exact ((ht.toTaken.heads []).handles []).push _

theorem Taken.leads_stream (h : Taken o gs k s) :
    Leads True stream s fun _ s' => Taken o (.document true :: gs) k s' := by
  unfold stream
  rw [leads_bind]
  refine h.leads_peek.mono fun t s₁ ht => ?_
  split
  · trivial
  · rename_i hkind
    have hstart : t.kind = .streamStart := by simpa using hkind
    simp only [leads_bind, leads_push]
    exact (ht.leads_skip_unnoted (by rw [hstart]; rfl)).mono fun _ s₂ hs₂ => hs₂.push _

/-! ## Events -/

/-- Whether a goal is one inside a document. -/
def isInner : Goal → Bool
  | .blockNode | .documentContent => true
  | g => g.isCollection

/-- Every goal inside a document is met with the brackets that it should open or close. -/
theorem Taken.leads_meet (h : Taken o gs k s) {g : Goal} (hg : isInner g) :
    Leads True (meet g) s (Meets o gs k g) := by
  cases g with
  | stream => cases hg
  | document => cases hg
  | documentEnd => cases hg
  | documentContent => exact h.leads_documentContent
  | blockNode => exact h.leads_node true false
  | blockEntry opened => exact h.leads_blockEntry opened
  | indentlessEntry => exact h.leads_indentlessEntry
  | blockKey opened => exact h.leads_blockKey opened
  | blockValue opened => exact h.leads_blockValue opened
  | flowEntry opened first => exact h.leads_flowEntry opened first
  | pairKey => exact h.leads_pairKey
  | pairValue => exact h.leads_pairValue
  | pairEnd => exact h.leads_pairEnd
  | flowKey opened first => exact h.leads_flowKey opened first
  | flowValue opened => exact h.leads_flowValue opened
  | flowNoValue opened => exact h.leads_flowNoValue opened

/-- An event is what meeting the goal on top gives, and none comes after trouble. -/
theorem Taken.leads_next {g : Goal} {Q : Event → EventStream → Prop} (h : Taken o (g :: gs) k s)
    (hmeet : ∀ {s' : EventStream}, Taken o gs k s' → Leads True (meet g) s' Q) :
    Leads True next s fun e s' => Q e s' ∧ s'.tokens.cursor.trouble = none := by
  unfold next
  simp only [leads_bind, leads_get, h.goals_eq, leads_set]
  have htaken : Taken o gs k { s with goals := gs } := ⟨h.reached, rfl⟩
  refine (hmeet htaken).mono fun e s' hs' => ?_
  cases htrouble : s'.tokens.cursor.trouble with
  | some failure => trivial
  | none => exact ⟨hs', htrouble⟩

/-- The goals are `gs`, and the brackets that the taken tokens have left open are among theirs. -/
def Balanced (o : TokenStream) (gs : List Goal) (s : EventStream) : Prop :=
  ∃ k ≤ openBrackets gs, Taken o gs k s

/-- An event inside a document replaces the goal on top by goals for collections, as many as it
leaves open. -/
theorem Balanced.leads_next {g : Goal} (h : Balanced o (g :: gs) s) (hg : isInner g) :
    Leads True next s fun e s' => e.isNode ∧ ∃ left, Balanced o (left ++ gs) s' ∧
      (∀ p ∈ left, p.isCollection) ∧
      (left.length : Int) = (if g.isCollection then 1 else 0) + e.change := by
  obtain ⟨k, hk, htaken⟩ := h
  refine (htaken.leads_next fun hs => hs.leads_meet hg).mono fun e s' hs' => ?_
  obtain ⟨left, d, htaken', hleft, hlength, hd, he⟩ := hs'.1
  refine ⟨he, left, ⟨k + d, ?_, htaken'⟩, hleft, hlength⟩
  rw [← List.singleton_append, openBrackets_append] at hk
  rw [openBrackets_append]
  omega

end EventStream

namespace DocumentStream

open EventStream (Balanced Ended isInner)

variable {o : TokenStream} {gs : List Goal} {st : DocumentStream}

/-! ## Nodes -/

/-- What an event does to the collections that are open. -/
def Effect.Changes : Effect → Int → Prop
  | .opens _, d => d = 1
  | .node _, d => d = 0
  | .closes, d => d = -1
  | .none, _ => True

theorem outcome_settle (number : Option Nat) (n : Node) :
    Outcome True (settle number n) st fun _ st' => st'.events = st.events ∧ st'.started = st.started := by
  cases number <;> exact ⟨rfl, rfl⟩

theorem outcome_register (anchor : Option Text) :
    Outcome True (register anchor) st fun _ st' => st'.events = st.events ∧ st'.started = st.started := by
  cases anchor <;> exact ⟨rfl, rfl⟩

/-- What an event does to the collections is what it counts for. -/
theorem outcome_effect (e : Event) :
    Outcome True (effect e) st fun f st' =>
      f.Changes e.change ∧ st'.events = st.events ∧ st'.started = st.started := by
  unfold effect
  split
  · unfold findAlias
    simp only [outcome_bind, outcome_get]
    split
    · trivial
    · exact ⟨rfl, rfl, rfl⟩
  · simp only [outcome_bind]
    refine (outcome_register _).mono fun number st₁ h₁ => ?_
    refine (outcome_settle _ _).mono fun _ st₂ h₂ => ?_
    exact ⟨rfl, h₂.1.trans h₁.1, h₂.2.trans h₁.2⟩
  · rw [outcome_bind]
    exact (outcome_register _).mono fun number st₁ h₁ => ⟨rfl, h₁⟩
  · rw [outcome_bind]
    exact (outcome_register _).mono fun number st₁ h₁ => ⟨rfl, h₁⟩
  · exact ⟨rfl, rfl, rfl⟩
  · exact ⟨rfl, rfl, rfl⟩
  · exact ⟨trivial, rfl, rfl⟩

/-- Composing is inside a node with `n` collections open: as many goals stand for them on top of
`gs`, and before the root has begun there is one for it. -/
def Inside (o : TokenStream) (gs : List Goal) (n : Nat) (st : DocumentStream) : Prop :=
  st.started = true ∧ ∃ g left, Balanced o (g :: (left ++ gs)) st.events ∧ isInner g ∧
    (∀ p ∈ left, p.isCollection) ∧ (if g.isCollection then 1 else 0) + left.length = n

/-- A node is complete, with nothing but the goals `gs` left. -/
def Past (o : TokenStream) (gs : List Goal) (st : DocumentStream) : Prop :=
  st.started = true ∧ Balanced o gs st.events

/-- After an event as many goals are left as collections are open. -/
def Between (o : TokenStream) (gs : List Goal) (n : Int) (st : DocumentStream) : Prop :=
  st.started = true ∧ ∃ left, Balanced o (left ++ gs) st.events ∧ (∀ p ∈ left, p.isCollection) ∧
    (left.length : Int) = n

theorem Between.inside {n : Nat} {m : Int} (h : Between o gs m st) (hm : m = n) (hn : n ≠ 0) :
    Inside o gs n st := by
  obtain ⟨hstarted, left, hbalanced, hleft, hlength⟩ := h
  cases left with
  | nil =>
    simp only [List.length_nil] at hlength
    omega
  | cons g left =>
    have hg := hleft g List.mem_cons_self
    refine ⟨hstarted, g, left, hbalanced, ?_, fun p hp => hleft p (List.mem_cons_of_mem _ hp), ?_⟩
    · cases g <;> first | rfl | cases hg
    · rw [List.length_cons] at hlength
      rw [if_pos hg]
      omega

theorem Between.past {m : Int} (h : Between o gs m st) (hm : m = 0) : Past o gs st := by
  obtain ⟨hstarted, left, hbalanced, -, hlength⟩ := h
  obtain rfl : left = [] := by
    rw [← List.length_eq_zero_iff]
    omega
  exact ⟨hstarted, hbalanced⟩

theorem Between.congr {m : Int} {st' : DocumentStream} (h : Between o gs m st)
    (hst : st'.events = st.events ∧ st'.started = st.started) : Between o gs m st' := by
  unfold Between at h ⊢
  rwa [hst.1, hst.2]

/-- The next event changes the number of open collections by what it counts for. -/
theorem Inside.outcome_nextEvent {n : Nat} (h : Inside o gs n st) :
    Outcome True nextEvent st fun e st' => Between o gs (n + e.change) st' := by
  obtain ⟨hstarted, g, left, hbalanced, hg, hleft, hn⟩ := h
  rw [DocumentStream.outcome_nextEvent]
  refine (hbalanced.leads_next hg).mono fun e events he => ?_
  obtain ⟨-, new, hbalanced', hnew, hlength⟩ := he
  refine ⟨hstarted, new ++ left, by rwa [List.append_assoc], ?_, ?_⟩
  · intro p hp
    rcases List.mem_append.1 hp with hp | hp
    · exact hnew p hp
    · exact hleft p hp
  · rw [List.length_append, Nat.cast_add, hlength, ← hn]
    split <;> simp <;> omega

/-- A node that is read to its end leaves the goals behind it. -/
theorem outcome_readNode (fuel : Nat) (opened : List Open) (h : Inside o gs opened.length st) :
    Outcome True (readNode fuel opened) st fun _ st' => Past o gs st' := by
  induction fuel generalizing opened st with
  | zero => trivial
  | succ fuel ih =>
    rw [readNode_succ, outcome_bind]
    refine h.outcome_nextEvent.mono fun e st₁ h₁ => ?_
    unfold proceed
    rw [outcome_bind]
    refine (outcome_effect e).mono fun f st₂ h₂ => ?_
    have hbetween := h₁.congr h₂.2
    have hchange := h₂.1
    -- a collection is opened, a node is read outside or inside of one, or the innermost one is closed
    split
    · rename_i c
      exact ih (c :: opened) (hbetween.inside (by rw [hchange]; rfl) (Nat.succ_ne_zero _))
    · exact hbetween.past (by rw [hchange]; rfl)
    · rename_i n c outer
      refine ih (add n c :: outer) (hbetween.inside ?_ (Nat.succ_ne_zero _))
      rw [hchange, add_zero]
      rfl
    · rename_i c outer
      rw [outcome_bind]
      refine (outcome_settle _ _).mono fun _ st₃ h₃ => ?_
      have hclosed := hbetween.congr h₃
      rw [hchange, List.length_cons] at hclosed
      cases outer with
      | nil => exact hclosed.past rfl
      | cons d rest =>
        refine ih (add (close c).1 d :: rest) (hclosed.inside ?_ (Nat.succ_ne_zero _))
        simp
    · trivial

/-! ## Documents -/

/-- All documents have been read: the tokens up to the end of the stream are taken, with no trouble,
and they open no more brackets than they close. -/
def Finished (o : TokenStream) (st : DocumentStream) : Prop :=
  (∃ k ≤ 0, Ended o k st.events) ∧ st.events.tokens.cursor.trouble = none

/-- A document has been read, or there is none left. -/
def Advances (o : TokenStream) : Option Document → DocumentStream → Prop
  | none, st => Finished o st
  | some _, st => Past o [.document false] st

/-- A document is read up to its end, and the stream advances by it. -/
theorem outcome_document? {first : Bool} (h : Past o [.document first] st) :
    Outcome True document? st (Advances o) := by
  unfold document?
  obtain ⟨hstarted, k, hk, htaken⟩ := h
  rw [outcome_bind, outcome_nextEvent]
  refine (htaken.leads_next fun hs => hs.leads_document first).mono fun e events he => ?_
  obtain ⟨⟨rfl, g, hg, hroot⟩ | ⟨rfl, hended⟩, htrouble⟩ := he
  · simp only [outcome_bind, outcome_get]
    have hinside : Inside o [.documentEnd] 0 { st with events := events } := by
      rcases hg with rfl | rfl
      · exact ⟨hstarted, .blockNode, [], ⟨k, hk, hroot⟩, rfl, by simp, rfl⟩
      · exact ⟨hstarted, .documentContent, [], ⟨k, hk, hroot⟩, rfl, by simp, rfl⟩
    refine (outcome_readNode _ [] hinside).mono fun root st₁ h₁ => ?_
    obtain ⟨hstarted₁, k₁, hk₁, htaken₁⟩ := h₁
    rw [outcome_nextEvent]
    refine (htaken₁.leads_next fun hs => hs.leads_documentEnd).mono fun e₂ events₂ he₂ => ?_
    exact ⟨hstarted₁, k₁, hk₁, he₂.1⟩
  · exact ⟨⟨k, hk, hended⟩, htrouble⟩

/-- The stream stands at the start or between documents. -/
def Ready (o : TokenStream) (st : DocumentStream) : Prop :=
  if st.started then Past o [.document false] st else Balanced o [.stream] st.events

/-- The next document is read behind the start of the stream, or behind the document before it. -/
theorem Ready.outcome_next? {Q : Option Document → DocumentStream → Prop} (h : Ready o st)
    (hnext : ∀ {first : Bool} {st' : DocumentStream}, Past o [.document first] st' →
      Outcome True document? st' Q) : Outcome True next? st Q := by
  unfold Ready at h
  rw [next?_eq, outcome_bind, outcome_get]
  cases hstarted : st.started with
  | true =>
    rw [hstarted, if_pos rfl] at h
    exact hnext h
  | false =>
    rw [hstarted, if_neg Bool.false_ne_true] at h
    obtain ⟨k, hk, htaken⟩ := h
    rw [Bool.not_false, if_pos rfl, outcome_bind, outcome_nextEvent]
    refine (htaken.leads_next fun hs => hs.leads_stream).mono fun e events he => ?_
    rw [outcome_bind, outcome_modify]
    exact hnext ⟨rfl, k, hk, he.1⟩

theorem Past.ready (h : Past o [.document false] st) : Ready o st := by
  rw [Ready, if_pos h.1]
  exact h

theorem ready_ofSource (src : Source) : Ready (.ofSource src) (ofSource src) :=
  ⟨0, le_refl _, ⟨[], .start _, by simp, rfl⟩, rfl⟩

end DocumentStream

end TreeLang.Yaml

namespace TreeLang

open Yaml (TokenStream)
open Yaml.DocumentStream (Ready Finished)

namespace TreeStream

/-- Where all trees can be read, each document denotes one. -/
theorem readAll_cases {fuel : Nat} {s : TreeStream} {trees : List Tree} (h : readAll fuel s = .ok trees) :
    ∃ less r documents, fuel = less + 1 ∧ Yaml.DocumentStream.next?.run s.documents = .ok (r, documents) ∧
      (r = none ∧ trees = [] ∨ ∃ d t x rest, r = some d ∧
        Decode.document d { s.expansion with visited := 0 } = .ok t x ∧
        readAll less ⟨documents, x⟩ = .ok rest ∧ trees = t :: rest) := by
  cases fuel with
  | zero => cases h
  | succ less =>
    unfold readAll next? at h
    cases hrun : Yaml.DocumentStream.next?.run s.documents with
    | error e =>
      rw [hrun] at h
      cases h
    | ok p =>
      obtain ⟨r, documents⟩ := p
      rw [hrun] at h
      refine ⟨less, r, documents, rfl, rfl, ?_⟩
      cases r with
      | none =>
        cases h
        exact Or.inl ⟨rfl, rfl⟩
      | some d =>
        dsimp only at h
        cases hdoc : Decode.document d { s.expansion with visited := 0 } with
        | error f x =>
          rw [hdoc] at h
          cases h
        | ok t x =>
          rw [hdoc] at h
          dsimp only at h
          cases hrest : readAll less ⟨documents, x⟩ with
          | error e =>
            rw [hrest] at h
            cases h
          | ok rest =>
            rw [hrest] at h
            cases h
            exact Or.inr ⟨d, t, x, rest, rfl, hdoc, hrest, rfl⟩

/-- Reading all trees reads the documents to the end of their stream. -/
theorem exists_finished_of_readAll {o : TokenStream} {fuel : Nat} {s : TreeStream} {trees : List Tree}
    (h : Ready o s.documents) (hread : readAll fuel s = .ok trees) : ∃ st, Finished o st := by
  induction fuel generalizing s trees with
  | zero => cases hread
  | succ fuel ih =>
    obtain ⟨less, r, documents, hfuel, hrun, hcases⟩ := readAll_cases hread
    obtain rfl : fuel = less := Nat.succ.inj hfuel
    have hnext := h.outcome_next? Yaml.DocumentStream.outcome_document?
    unfold Yaml.DocumentStream.Outcome at hnext
    rw [hrun] at hnext
    rcases hcases with ⟨rfl, -⟩ | ⟨d, t, x, rest, rfl, -, hrest, -⟩
    · exact ⟨documents, hnext⟩
    · exact ih hnext.ready hrest

/-- The tokens of a text that is read are taken up to the end, without trouble, and open no more
brackets than they close. -/
theorem exists_handed_of_readAll {src : Yaml.Source} {trees : List Tree}
    (h : Tree.readAll src = .ok trees) :
    ∃ n ts t s, (TokenStream.ofSource src).handed n = (ts ++ [t], s) ∧ t.kind = .streamEnd ∧
      (∀ u ∈ ts, u.kind ≠ .streamEnd) ∧ Yaml.flowDepth ts ≤ 0 ∧ s.cursor.trouble = none := by
  obtain ⟨st, ⟨k, hk, n, ts, t, hn, ht, hts, rfl⟩, htrouble⟩ :=
    exists_finished_of_readAll (Yaml.DocumentStream.ready_ofSource src) h
  exact ⟨n, ts, t, st.events.tokens, hn, ht, hts, hk, htrouble⟩

end TreeStream

end TreeLang
