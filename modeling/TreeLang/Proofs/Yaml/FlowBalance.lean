import TreeLang.Proofs.Yaml.EventRules
import TreeLang.Proofs.Yaml.HandOut

/-!
# Flow collections are closed

Along every run of the grammar the flow collections that the taken tokens open and do not close are
at most the goals inside flow collections. `EventStream.Taken` says where a run stands: which goals
are on the stack, and how many more brackets the taken tokens open than close. What each goal does
is stated once (`Meets`), and then the goals and the collections that a document has open go along
together.

More brackets may be closed than opened: the key of a pair in a flow sequence is also left out in
front of the end of the sequence, which is then passed over.
-/

set_option autoImplicit false

namespace TreeLang.Yaml

/-! ## Depths -/

/-- How many more brackets a token of the kind opens than closes. -/
def TokenKind.depth : TokenKind → Int
  | .flowSequenceStart | .flowMappingStart => 1
  | .flowSequenceEnd | .flowMappingEnd => -1
  | _ => 0

theorem TokenKind.ne_streamEnd {k : TokenKind} (h : k.isNoted = false) : k ≠ .streamEnd := by
  rintro rfl
  exact absurd h (by decide)

theorem TokenKind.depth_eq_zero {k : TokenKind} (h : k.bracket?.isSome = false) : k.depth = 0 := by
  cases k <;> first | rfl | exact absurd h (by decide)

/-- How many more brackets tokens open than close. -/
def flowDepth (ts : List Token) : Int := (ts.map (·.kind.depth)).sum

/-- The depths of tokens one after the other add up. -/
theorem flowDepth_append (ts us : List Token) : flowDepth (ts ++ us) = flowDepth ts + flowDepth us := by
  simp [flowDepth]

namespace Goal

/-- Whether a goal stands for a collection that is not closed. -/
def isCollection : Goal → Bool
  | .stream | .document _ | .documentContent | .documentEnd | .blockNode => false
  | _ => true

/-- Whether a goal stands for a collection whose bracket is not closed. -/
def inBrackets : Goal → Bool
  | .flowEntry _ _ | .flowKey _ _ | .flowValue _ | .flowNoValue _ => true
  | _ => false

end Goal

/-- The number of brackets that have to be closed to meet all goals. -/
def openBrackets (gs : List Goal) : Int := gs.countP Goal.inBrackets

theorem openBrackets_cons (g : Goal) (gs : List Goal) :
    openBrackets (g :: gs) = openBrackets gs + if g.inBrackets then 1 else 0 := by
  rw [openBrackets, List.countP_cons]
  split <;> simp [openBrackets, *]

theorem openBrackets_append (gs hs : List Goal) :
    openBrackets (gs ++ hs) = openBrackets gs + openBrackets hs := by
  simp [openBrackets]

/-- By how much an event changes the number of open collections. -/
def Event.change : Event → Int
  | .sequenceStart _ _ | .mappingStart _ _ => 1
  | .sequenceEnd | .mappingEnd => -1
  | _ => 0

/-- Whether an event belongs to a node. -/
def Event.isNode : Event → Bool
  | .streamStart | .streamEnd | .documentStart | .documentEnd => false
  | _ => true

namespace TokenStream

/-! ## Taking the tokens of a stream -/

/-- The tokens `ts` of the stream `o` have been taken, and perhaps the next one has been looked
at. -/
def Reached (o : TokenStream) (ts : List Token) (s : TokenStream) : Prop :=
  ∃ n s₁, handed n o = (ts, s₁) ∧ (s = s₁ ∨ ∃ t, look s₁ = .ok t s)

namespace Reached

variable {o s s' : TokenStream} {ts : List Token} {t : Token}

theorem start (o : TokenStream) : Reached o [] o := ⟨0, o, rfl, Or.inl rfl⟩

/-- Looking at a token takes none. -/
theorem look_ok (h : Reached o ts s) (hlook : look s = .ok t s') : Reached o ts s' := by
  obtain ⟨n, s₁, hn, rfl | ⟨u, hu⟩⟩ := h
  · exact ⟨n, s, hn, Or.inr ⟨t, hlook⟩⟩
  · rw [look_look hu] at hlook
    cases hlook
    exact ⟨n, s₁, hn, Or.inr ⟨t, hu⟩⟩

theorem look_error {e : Error} (h : Reached o ts s) (hlook : look s = .error e s') : Reached o ts s' := by
  obtain ⟨n, s₁, hn, rfl | ⟨u, hu⟩⟩ := h
  · exact ⟨n + 1, s', handed_error hn hlook, Or.inl rfl⟩
  · rw [look_look hu] at hlook
    cases hlook

/-- The token that is looked at is the next one handed out. -/
theorem handed_tail (h : Reached o ts s) (hlook : Looked t s) :
    ∃ n, handed n o = (ts ++ [t], s.tail) := by
  obtain ⟨n, s₁, hn, rfl | ⟨u, hu⟩⟩ := h
  · exact ⟨n + 1, handed_concat hn hlook.look_eq⟩
  · have heq := hlook.look_eq
    rw [look_look hu] at heq
    cases heq
    exact ⟨n + 1, handed_concat hn hu⟩

theorem tail (h : Reached o ts s) (hlook : Looked t s) : Reached o (ts ++ [t]) s.tail := by
  obtain ⟨n, hn⟩ := h.handed_tail hlook
  exact ⟨n, _, hn, Or.inl rfl⟩

end Reached

end TokenStream

namespace EventStream

open TokenStream (Reached Looked look)

/-! ## Where a run stands -/

/-- Tokens of the stream `o` have been taken that open `k` more brackets than they close, but not
its end, and the goals are `gs`. -/
structure Taken (o : TokenStream) (gs : List Goal) (k : Int) (s : EventStream) : Prop where
  reached : ∃ ts, Reached o ts s.tokens ∧ (∀ t ∈ ts, t.kind ≠ .streamEnd) ∧ flowDepth ts = k
  goals_eq : s.goals = gs

/-- Tokens have been taken, and `t` is looked at. -/
structure Showing (o : TokenStream) (gs : List Goal) (k : Int) (t : Token) (s : EventStream) : Prop
    extends Taken o gs k s where
  looked : Looked t s.tokens

section Steps

variable {o : TokenStream} {gs : List Goal} {k : Int} {s : EventStream} {t : Token}

/-- Looking at a token is looking at it in the stream of tokens; only comments are moved
otherwise. -/
theorem peek_eq (s : EventStream) : ∃ heads, peek s = match look s.tokens with
    | .ok t tokens => .ok t { s with tokens := tokens, heads := heads }
    | .error e tokens => .error e { s with tokens := tokens } := by
  unfold peek look
  simp only [bind, EStateM.bind, scanning]
  cases TokenStream.peek s.tokens with
  | error e tokens => exact ⟨[], rfl⟩
  | ok t tokens => exact ⟨_, rfl⟩

/-- Looking at a token shows it. -/
theorem Taken.leads_peek (h : Taken o gs k s) : Leads True peek s fun t s' => Showing o gs k t s' := by
  obtain ⟨ts, hreached, hts⟩ := h.reached
  obtain ⟨heads, heq⟩ := peek_eq s
  unfold Leads
  rw [heq]
  cases hlook : look s.tokens with
  | error e tokens => trivial
  | ok t tokens =>
    exact ⟨⟨⟨ts, hreached.look_ok hlook, hts⟩, h.goals_eq⟩, TokenStream.looked_of_look hlook⟩

/-- Where a look fails, the tokens that have been taken are the same. -/
theorem Taken.peek_error (h : Taken o gs k s) {e : Error} {s' : EventStream}
    (herror : peek s = .error e s') : Taken o gs k s' := by
  obtain ⟨ts, hreached, hts⟩ := h.reached
  obtain ⟨heads, heq⟩ := peek_eq s
  rw [heq] at herror
  cases hlook : look s.tokens with
  | error e tokens =>
    rw [hlook] at herror
    cases herror
    exact ⟨⟨ts, hreached.look_error hlook, hts⟩, h.goals_eq⟩
  | ok t tokens =>
    rw [hlook] at herror
    cases herror

/-- Skipping a token counts its bracket, if it is one. -/
theorem Showing.leads_skip (h : Showing o gs k t s) (ht : t.kind ≠ .streamEnd) :
    Leads True skip s fun _ s' => Taken o gs (k + t.kind.depth) s' := by
  obtain ⟨ts, hreached, hend, rfl⟩ := h.reached
  refine ⟨⟨ts ++ [t], hreached.tail h.looked, ?_, ?_⟩, h.goals_eq⟩
  · intro u hu
    rcases List.mem_append.1 hu with hu | hu
    · exact hend u hu
    · rwa [List.mem_singleton.1 hu]
  · rw [flowDepth_append]
    simp [flowDepth]

/-- A token that is not a noted one is taken. -/
theorem Showing.leads_skip_unnoted (h : Showing o gs k t s) (ht : t.kind.isNoted = false) :
    Leads True skip s fun _ s' => Taken o gs k s' := by
  have hskip := h.leads_skip (TokenKind.ne_streamEnd ht)
  rwa [TokenKind.depth_eq_zero (Bool.or_eq_false_iff.1 ht).1, add_zero] at hskip

theorem Showing.leads_skipAndPeek (h : Showing o gs k t s) (ht : t.kind.isNoted = false) :
    Leads True skipAndPeek s fun u s' => Showing o gs k u s' := by
  unfold skipAndPeek
  rw [leads_bind]
  exact (h.leads_skip_unnoted ht).mono fun _ _ hs => hs.leads_peek

theorem Taken.push (h : Taken o gs k s) (g : Goal) :
    Taken o (g :: gs) k { s with goals := g :: s.goals } :=
  ⟨h.reached, congrArg (g :: ·) h.goals_eq⟩

theorem Taken.heads (h : Taken o gs k s) (heads : List Comment) : Taken o gs k { s with heads := heads } :=
  ⟨h.reached, h.goals_eq⟩

theorem Showing.heads (h : Showing o gs k t s) (heads : List Comment) :
    Showing o gs k t { s with heads := heads } := ⟨h.toTaken.heads heads, h.looked⟩

/-! ## Nodes -/

/-- The handle of a tag is looked up among those declared, which takes no token. -/
theorem Showing.leads_resolveTag (h : Showing o gs k t s) (start place : Mark) (handle suffix : Text) :
    Leads True (resolveTag start place handle suffix) s fun _ s' => Showing o gs k t s' := by
  unfold resolveTag
  split
  · exact h
  · simp only [leads_bind, leads_get]
    split
    · trivial
    · exact h

/-- Anchors and tags are not noted, so reading them opens no bracket. -/
theorem Taken.leads_properties (h : Taken o gs k s) :
    Leads True properties s fun r s' => Showing o gs k r.2 s' := by
  unfold properties
  rw [leads_bind]
  refine h.leads_peek.mono fun t s₁ ht => ?_
  split
  · rename_i name hkind
    rw [leads_bind]
    refine (ht.leads_skipAndPeek (by rw [hkind]; rfl)).mono fun u s₂ hu => ?_
    split
    · rename_i handle suffix hkind'
      simp only [leads_bind]
      refine (hu.leads_skipAndPeek (by rw [hkind']; rfl)).mono fun v s₃ hv => ?_
      exact hv.leads_resolveTag _ _ _ _
    · exact hu
  · rename_i handle suffix hkind
    rw [leads_bind]
    refine (ht.leads_skipAndPeek (by rw [hkind]; rfl)).mono fun u s₂ hu => ?_
    split
    · rename_i name hkind'
      simp only [leads_bind]
      refine (hu.leads_skipAndPeek (by rw [hkind']; rfl)).mono fun v s₃ hv => ?_
      exact hv.leads_resolveTag _ _ _ _
    · simp only [leads_bind]
      exact hu.leads_resolveTag _ _ _ _
  · exact ht

/-- A goal `g` has been met on top of the goals `gs`, with the event `e`. The goals that are left in
its place stand for collections, as many as are open after the event, and the brackets that the
taken tokens open are among theirs. -/
def Meets (o : TokenStream) (gs : List Goal) (k : Int) (g : Goal) (e : Event) (s : EventStream) : Prop :=
  ∃ left d, Taken o (left ++ gs) (k + d) s ∧ (∀ p ∈ left, p.isCollection) ∧
    (left.length : Int) = (if g.isCollection then 1 else 0) + e.change ∧
    d ≤ openBrackets left - openBrackets [g] ∧ e.isNode

theorem Taken.meets {g : Goal} {e : Event} (left : List Goal) (d : Int)
    (h : Taken o (left ++ gs) (k + d) s) (hleft : left.all Goal.isCollection)
    (hlength : (left.length : Int) = (if g.isCollection then 1 else 0) + e.change)
    (hd : d ≤ openBrackets left - openBrackets [g]) (he : e.isNode) : Meets o gs k g e s :=
  ⟨left, d, h, by simpa using hleft, hlength, hd, he⟩

/-- No bracket has been taken since. -/
theorem Taken.meets_unnoted {g : Goal} {e : Event} (left : List Goal) (h : Taken o (left ++ gs) k s)
    (hleft : left.all Goal.isCollection)
    (hlength : (left.length : Int) = (if g.isCollection then 1 else 0) + e.change)
    (hd : 0 ≤ openBrackets left - openBrackets [g]) (he : e.isNode) : Meets o gs k g e s :=
  Taken.meets left 0 (by rwa [add_zero]) hleft hlength hd he

/-- A node meets its goal: what it opens is what its first token opens. -/
theorem Taken.leads_node (h : Taken o gs k s) (block indentless : Bool) :
    Leads True (node block indentless) s (Meets o gs k .blockNode) := by
  unfold node
  rw [leads_bind]
  refine h.leads_peek.mono fun t s₁ ht => ?_
  split
  · rename_i name hkind
    simp only [leads_bind, leads_attachHeads]
    refine ((ht.heads []).leads_skip_unnoted (by rw [hkind]; rfl)).mono fun _ s₂ hs₂ => ?_
    exact Taken.meets_unnoted [] hs₂ rfl rfl (le_refl _) rfl
  · rw [leads_bind]
    refine ht.toTaken.leads_properties.mono fun r s₂ hr => ?_
    obtain ⟨props, u⟩ := r
    dsimp only at hr ⊢
    -- only the starts of flow collections take a bracket, and leave a goal in brackets for it
    split
    · exact (hr.toTaken.push .indentlessEntry).meets_unnoted [_] rfl rfl (le_refl _) rfl
    · rename_i hkind
      simp only [leads_bind, leads_attachHeads]
      refine ((hr.heads []).leads_skip_unnoted (by rw [hkind]; rfl)).mono fun _ s₃ hs₃ => ?_
      exact Taken.meets_unnoted [] hs₃ rfl rfl (le_refl _) rfl
    · rename_i hkind
      simp only [leads_bind, leads_attachHeads]
      refine ((hr.heads []).leads_skip (by rw [hkind]; simp)).mono fun _ s₃ hs₃ => ?_
      rw [hkind] at hs₃
      exact (hs₃.push (.flowEntry u.start true)).meets [_] 1 rfl rfl (le_refl (1 : Int)) rfl
    · rename_i hkind
      simp only [leads_bind, leads_attachHeads]
      refine ((hr.heads []).leads_skip (by rw [hkind]; simp)).mono fun _ s₃ hs₃ => ?_
      rw [hkind] at hs₃
      exact (hs₃.push (.flowKey u.start true)).meets [_] 1 rfl rfl (le_refl (1 : Int)) rfl
    · rename_i hkind
      rw [leads_bind]
      refine (hr.leads_skip_unnoted (by rw [hkind]; rfl)).mono fun _ s₃ hs₃ => ?_
      exact (hs₃.push (.blockEntry u.start)).meets_unnoted [_] rfl rfl (le_refl _) rfl
    · rename_i hkind
      rw [leads_bind]
      refine (hr.leads_skip_unnoted (by rw [hkind]; rfl)).mono fun _ s₃ hs₃ => ?_
      exact (hs₃.push (.blockKey u.start)).meets_unnoted [_] rfl rfl (le_refl _) rfl
    · split
      · exact hr.toTaken.meets_unnoted [] rfl rfl (le_refl _) rfl
      · trivial

/-- A node that is followed by a goal in place of the one that is met. -/
theorem Taken.leads_nodeThen (h : Taken o gs k s) {g g' : Goal} (hg : g.isCollection)
    (hg' : g'.isCollection) (hb : g.inBrackets = g'.inBrackets) (block indentless : Bool) :
    Leads True (nodeThen g' block indentless) s (Meets o gs k g) := by
  unfold nodeThen
  simp only [leads_bind, leads_push]
  refine ((h.push g').leads_node block indentless).mono fun e s' hs' => ?_
  obtain ⟨left, d, htaken, hleft, hlength, hd, he⟩ := hs'
  refine ⟨left ++ [g'], d, by rwa [List.append_assoc], ?_, ?_, ?_, he⟩
  · intro p hp
    rcases List.mem_append.1 hp with hp | hp
    · exact hleft p hp
    · rwa [List.mem_singleton.1 hp]
  · rw [List.length_append, Nat.cast_add, hlength, hg]
    simp [Goal.isCollection, add_comm]
  · have hone : openBrackets [g'] = openBrackets [g] := by
      rw [openBrackets_cons, openBrackets_cons, hb]
    rw [openBrackets_append, hone]
    have hnode : openBrackets [Goal.blockNode] = 0 := rfl
    omega

/-- A missing node that is followed by a goal in place of the one that is met. -/
theorem Taken.leads_missingThen (h : Taken o gs k s) {g g' : Goal} (hg : g.isCollection)
    (hg' : g'.isCollection) (hb : g.inBrackets = g'.inBrackets) (m : Mark) :
    Leads True (missingThen g' m) s (Meets o gs k g) := by
  unfold missingThen
  simp only [leads_bind, leads_push]
  refine (h.push g').meets_unnoted [g'] (by simpa using hg') ?_ ?_ rfl
  · rw [hg]
    rfl
  · rw [openBrackets_cons, openBrackets_cons, hb]
    omega

/-! ## Block collections -/

/-- A look that may fail, as long as the failure is passed over. -/
theorem Taken.leads_tryLook (h : Taken o gs k s) {f : Token → EventStream → EventStream}
    {x : Token → Parse Unit} (hx : ∀ t s, x t s = .ok () (f t s))
    (hf : ∀ t s, (f t s).tokens = s.tokens ∧ (f t s).goals = s.goals) :
    Leads True (tryCatch (peek >>= x) fun _ => pure ()) s fun _ s' => Taken o gs k s' := by
  show Leads True (EStateM.tryCatch (EStateM.bind peek x) fun _ => pure ()) s _
  unfold Leads EStateM.tryCatch EStateM.bind
  cases hpeek : peek s with
  | error e s' => exact h.peek_error hpeek
  | ok t s' =>
    have hshown := h.leads_peek
    unfold Leads at hshown
    rw [hpeek] at hshown
    obtain ⟨htokens, hgoals⟩ := hf t s'
    dsimp only at hshown ⊢
    rw [hx]
    exact ⟨htokens.symm ▸ hshown.reached, hgoals.trans hshown.goals_eq⟩

theorem Showing.leads_skipDash (h : Showing o gs k t s) (ht : t.kind.isNoted = false) :
    Leads True skipDash s fun u s' => Showing o gs k u s' := by
  unfold skipDash
  simp only [leads_bind, leads_get]
  refine (h.leads_skip_unnoted ht).mono fun _ s₁ hs₁ => ?_
  split
  · rw [leads_bind]
    refine (hs₁.leads_tryLook (f := fun t s' =>
      if t.kind == .blockSequenceStart || t.kind == .blockMappingStart then
        { s' with heads := s'.heads.take (s'.heads.length - s.heads.length) }
      else s') ?_ ?_).mono fun _ s₂ hs₂ => hs₂.leads_peek
    · intro u s'
      split <;> rfl
    · intro u s'
      split <;> exact ⟨rfl, rfl⟩
  · exact hs₁.leads_peek

theorem Taken.leads_blockEntry (h : Taken o gs k s) (opened : Mark) :
    Leads True (blockEntry opened) s (Meets o gs k (.blockEntry opened)) := by
  unfold blockEntry
  rw [leads_bind]
  refine h.leads_peek.mono fun t s₁ ht => ?_
  split
  · rename_i hkind
    rw [leads_bind]
    refine (ht.leads_skipDash (by rw [hkind]; rfl)).mono fun u s₂ hu => ?_
    split
    · exact hu.toTaken.leads_missingThen rfl rfl rfl _
    · exact hu.toTaken.leads_missingThen rfl rfl rfl _
    · exact hu.toTaken.leads_nodeThen rfl rfl rfl _ _
  · rename_i hkind
    rw [leads_bind]
    refine (ht.leads_skip_unnoted (by rw [hkind]; rfl)).mono fun _ s₂ hs₂ => ?_
    exact Taken.meets_unnoted [] hs₂ rfl rfl (le_refl _) rfl
  · trivial

theorem Taken.leads_indentlessEntry (h : Taken o gs k s) :
    Leads True indentlessEntry s (Meets o gs k .indentlessEntry) := by
  unfold indentlessEntry
  rw [leads_bind]
  refine h.leads_peek.mono fun t s₁ ht => ?_
  split
  · rename_i hkind
    rw [leads_bind]
    refine (ht.leads_skipDash (by rw [hkind]; rfl)).mono fun u s₂ hu => ?_
    split
    · exact hu.toTaken.leads_missingThen rfl rfl rfl _
    · exact hu.toTaken.leads_missingThen rfl rfl rfl _
    · exact hu.toTaken.leads_missingThen rfl rfl rfl _
    · exact hu.toTaken.leads_missingThen rfl rfl rfl _
    · exact hu.toTaken.leads_nodeThen rfl rfl rfl _ _
  · exact ht.toTaken.meets_unnoted [] rfl rfl (le_refl _) rfl

theorem Taken.leads_blockKey (h : Taken o gs k s) (opened : Mark) :
    Leads True (blockKey opened) s (Meets o gs k (.blockKey opened)) := by
  unfold blockKey
  rw [leads_bind]
  refine h.leads_peek.mono fun t s₁ ht => ?_
  split
  · rename_i hkind
    rw [leads_bind]
    refine (ht.leads_skipAndPeek (by rw [hkind]; rfl)).mono fun u s₂ hu => ?_
    split
    · exact hu.toTaken.leads_missingThen rfl rfl rfl _
    · exact hu.toTaken.leads_missingThen rfl rfl rfl _
    · exact hu.toTaken.leads_missingThen rfl rfl rfl _
    · exact hu.toTaken.leads_nodeThen rfl rfl rfl _ _
  · rename_i hkind
    simp only [leads_bind, leads_attachHeads]
    refine ((ht.heads []).leads_skip_unnoted (by rw [hkind]; rfl)).mono fun _ s₂ hs₂ => ?_
    exact Taken.meets_unnoted [] hs₂ rfl rfl (le_refl _) rfl
  · trivial

theorem Taken.leads_blockValue (h : Taken o gs k s) (opened : Mark) :
    Leads True (blockValue opened) s (Meets o gs k (.blockValue opened)) := by
  unfold blockValue
  rw [leads_bind]
  refine h.leads_peek.mono fun t s₁ ht => ?_
  split
  · rename_i hkind
    rw [leads_bind]
    refine (ht.leads_skipAndPeek (by rw [hkind]; rfl)).mono fun u s₂ hu => ?_
    split
    · exact hu.toTaken.leads_missingThen rfl rfl rfl _
    · exact hu.toTaken.leads_missingThen rfl rfl rfl _
    · exact hu.toTaken.leads_missingThen rfl rfl rfl _
    · exact hu.toTaken.leads_nodeThen rfl rfl rfl _ _
  · exact ht.toTaken.leads_missingThen rfl rfl rfl _

/-! ## Flow collections -/

/-- Commas are not noted, so going on to an item opens no bracket. -/
theorem Taken.leads_flowNext (h : Taken o gs k s) (opened : Mark) (first : Bool) (close : TokenKind)
    (fault : GrammarFault) :
    Leads True (flowNext opened first close fault) s fun t s' => Showing o gs k t s' := by
  unfold flowNext
  rw [leads_bind]
  refine h.leads_peek.mono fun t s₁ ht => ?_
  split
  · exact ht
  · split
    · rename_i hkind
      exact ht.leads_skipAndPeek (by rw [beq_iff_eq.1 hkind]; rfl)
    · trivial

theorem Taken.leads_flowEntry (h : Taken o gs k s) (opened : Mark) (first : Bool) :
    Leads True (flowEntry opened first) s (Meets o gs k (.flowEntry opened first)) := by
  unfold flowEntry
  rw [leads_bind]
  refine (h.leads_flowNext _ _ _ _).mono fun t s₁ ht => ?_
  split
  · rename_i hkind
    simp only [leads_bind, leads_attachHeads]
    refine ((ht.heads []).leads_skip (by rw [hkind]; simp)).mono fun _ s₂ hs₂ => ?_
    rw [hkind] at hs₂
    exact Taken.meets [] (-1) hs₂ rfl rfl (le_refl (-1 : Int)) rfl
  · rename_i hkind
    rw [leads_bind]
    refine (ht.leads_skip_unnoted (by rw [hkind]; rfl)).mono fun _ s₂ hs₂ => ?_
    exact ((hs₂.push (.flowEntry opened false)).push .pairKey).meets_unnoted [_, _] rfl rfl (le_refl _) rfl
  · exact ht.toTaken.leads_nodeThen rfl rfl rfl _ _

/-- The key of a pair may be left out in front of the end of the sequence, which is passed over
then. -/
theorem Taken.leads_pairKey (h : Taken o gs k s) : Leads True pairKey s (Meets o gs k .pairKey) := by
  unfold pairKey
  rw [leads_bind]
  refine h.leads_peek.mono fun t s₁ ht => ?_
  split
  · rename_i hkind
    rw [leads_bind]
    refine (ht.leads_skip_unnoted (by rw [hkind]; rfl)).mono fun _ s₂ hs₂ => ?_
    exact hs₂.leads_missingThen rfl rfl rfl _
  · rename_i hkind
    rw [leads_bind]
    refine (ht.leads_skip_unnoted (by rw [hkind]; rfl)).mono fun _ s₂ hs₂ => ?_
    exact hs₂.leads_missingThen rfl rfl rfl _
  · rename_i hkind
    rw [leads_bind]
    refine (ht.leads_skip (by rw [hkind]; simp)).mono fun _ s₂ hs₂ => ?_
    rw [hkind] at hs₂
    exact (hs₂.push .pairValue).meets [_] (-1) rfl rfl (by decide) rfl
  · exact ht.toTaken.leads_nodeThen rfl rfl rfl _ _

theorem Taken.leads_pairValue (h : Taken o gs k s) :
    Leads True pairValue s (Meets o gs k .pairValue) := by
  unfold pairValue
  rw [leads_bind]
  refine h.leads_peek.mono fun t s₁ ht => ?_
  split
  · rename_i hkind
    rw [leads_bind]
    refine (ht.leads_skipAndPeek (by rw [hkind]; rfl)).mono fun u s₂ hu => ?_
    split
    · exact hu.toTaken.leads_missingThen rfl rfl rfl _
    · exact hu.toTaken.leads_missingThen rfl rfl rfl _
    · exact hu.toTaken.leads_nodeThen rfl rfl rfl _ _
  · exact ht.toTaken.leads_missingThen rfl rfl rfl _

theorem Taken.leads_pairEnd (h : Taken o gs k s) : Leads True pairEnd s (Meets o gs k .pairEnd) := by
  unfold pairEnd
  rw [leads_bind]
  exact h.leads_peek.mono fun t s₁ ht => ht.toTaken.meets_unnoted [] rfl rfl (le_refl _) rfl

theorem Taken.leads_flowKey (h : Taken o gs k s) (opened : Mark) (first : Bool) :
    Leads True (flowKey opened first) s (Meets o gs k (.flowKey opened first)) := by
  unfold flowKey
  rw [leads_bind]
  refine (h.leads_flowNext _ _ _ _).mono fun t s₁ ht => ?_
  split
  · rename_i hkind
    simp only [leads_bind, leads_attachHeads]
    refine ((ht.heads []).leads_skip (by rw [hkind]; simp)).mono fun _ s₂ hs₂ => ?_
    rw [hkind] at hs₂
    exact Taken.meets [] (-1) hs₂ rfl rfl (le_refl (-1 : Int)) rfl
  · rename_i hkind
    rw [leads_bind]
    refine (ht.leads_skipAndPeek (by rw [hkind]; rfl)).mono fun u s₂ hu => ?_
    split
    · exact hu.toTaken.leads_missingThen rfl rfl rfl _
    · exact hu.toTaken.leads_missingThen rfl rfl rfl _
    · exact hu.toTaken.leads_missingThen rfl rfl rfl _
    · exact hu.toTaken.leads_nodeThen rfl rfl rfl _ _
  · exact ht.toTaken.leads_nodeThen rfl rfl rfl _ _

theorem Taken.leads_flowValue (h : Taken o gs k s) (opened : Mark) :
    Leads True (flowValue opened) s (Meets o gs k (.flowValue opened)) := by
  unfold flowValue
  rw [leads_bind]
  refine h.leads_peek.mono fun t s₁ ht => ?_
  split
  · rename_i hkind
    rw [leads_bind]
    refine (ht.leads_skipAndPeek (by rw [hkind]; rfl)).mono fun u s₂ hu => ?_
    split
    · exact hu.toTaken.leads_missingThen rfl rfl rfl _
    · exact hu.toTaken.leads_missingThen rfl rfl rfl _
    · exact hu.toTaken.leads_nodeThen rfl rfl rfl _ _
  · exact ht.toTaken.leads_missingThen rfl rfl rfl _

theorem Taken.leads_flowNoValue (h : Taken o gs k s) (opened : Mark) :
    Leads True (flowNoValue opened) s (Meets o gs k (.flowNoValue opened)) := by
  unfold flowNoValue
  rw [leads_bind]
  exact h.leads_peek.mono fun t s₁ ht => ht.toTaken.leads_missingThen rfl rfl rfl _

end Steps

end EventStream

end TreeLang.Yaml
