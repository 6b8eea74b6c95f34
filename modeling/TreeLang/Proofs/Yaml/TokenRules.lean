import TreeLang.Proofs.Yaml.BlockScalar
import TreeLang.Yaml.Token.Stream

/-!
# Reading one token

What `readToken` does in front of each token of a written text. `TokenStream.Stands` says where a
stream stands: in front of which text, inside which block collections and how many flow collections,
and whether a key may start there. No comment is ever met, and no pending key is one that has to be
a key, so none of them is a fault.
-/

set_option autoImplicit false

namespace TreeLang.Yaml.TokenStream

open Cursor (At)
open Style (spaces)

/-! ## Rules -/

section Rules

variable {b : Prop} {s : TokenStream}

@[simp] theorem leads_reading {α : Type} (r : Read α) {Q : α → TokenStream → Prop} :
    Leads b (reading r) s Q ↔ Leads b r s.cursor fun a c => Q a { s with cursor := c } := by
  unfold Leads reading
  cases r s.cursor <;> exact Iff.rfl

@[simp] theorem leads_mark {Q : Mark → TokenStream → Prop} :
    Leads b mark s Q ↔ Q s.cursor.mark s := Iff.rfl

@[simp] theorem leads_fail {α : Type} {Q : α → TokenStream → Prop} (fault : ScanFault)
    (context : Mark) : Leads b (fail fault context) s Q ↔ b := by
  unfold fail
  rw [leads_reading]
  exact Read.leads_fail fault context

@[simp] theorem leads_push {Q : Unit → TokenStream → Prop} (t : Token) :
    Leads b (push t) s Q ↔ Q () { s with queue := s.queue ++ [t] } := Iff.rfl

@[simp] theorem leads_keep_nil {Q : Unit → TokenStream → Prop} :
    Leads b (keep []) s Q ↔ Q () s := Iff.rfl

@[simp] theorem leads_allowKey {Q : Unit → TokenStream → Prop} (allowed : Bool) :
    Leads b (allowKey allowed) s Q ↔ Q () { s with keyAllowed := allowed } := Iff.rfl

end Rules

/-! ## Comments -/

/-- Whether no comment follows on the line. -/
def Uncommented (rest : List Char) : Prop := (rest.dropWhile isSpaceOrTab).headD endChar ≠ '#'

section Comments

variable {b : Prop} {N : Nat} {c : Cursor} {rest : List Char} {m : Mark} {k : Nat}

theorem getD_drop (rest : List Char) (n : Nat) :
    rest.getD n endChar = (rest.drop n).headD endChar := by
  rw [List.getD_eq_getElem?_getD, ← List.head?_drop, List.headD_eq_head?_getD]

/-- No comment follows where there is none in the text. -/
theorem leads_follows (n : Nat) : ∀ {c : Cursor} {ahead : Nat}, At N c rest m k →
    Uncommented (rest.drop ahead) →
    Leads b (Comment.follows n ahead) c fun a c' => a = false ∧ At N c' rest m k := by
  induction n with
  | zero =>
    intro c ahead h _
    exact ⟨rfl, h⟩
  | succ n ih =>
    intro c ahead h hno
    unfold Comment.follows
    simp only [leads_bind]
    refine (Read.leads_has h (ahead + 1)).mono fun a c₁ hc₁ => ?_
    rw [hc₁.1, if_pos rfl]
    have hahead : c₁.ahead ahead = (rest.drop ahead).headD endChar := by
      rw [hc₁.2.1.ahead (Nat.lt_succ_self _), getD_drop]
    simp only [leads_bind, Read.leads_peekAt, hahead]
    -- a blank leads on to the next character, anything else decides
    by_cases hblank : isSpaceOrTab ((rest.drop ahead).headD endChar) = true
    · rw [if_pos hblank]
      refine ih hc₁.2.2 ?_
      cases hdrop : rest.drop ahead with
      | nil =>
        rw [hdrop] at hblank
        exact absurd hblank (by decide)
      | cons d r =>
        rw [hdrop, List.headD_cons] at hblank
        rw [hdrop] at hno
        rw [← List.drop_drop, hdrop]
        unfold Uncommented at hno
        rwa [List.dropWhile_cons_of_pos hblank] at hno
    · rw [if_neg hblank]
      refine ⟨?_, hc₁.2.2⟩
      rw [beq_eq_false_iff_ne]
      cases hdrop : rest.drop ahead with
      | nil => decide
      | cons d r =>
        rw [hdrop, List.headD_cons] at hblank
        rw [hdrop] at hno
        unfold Uncommented at hno
        rwa [List.dropWhile_cons_of_neg hblank] at hno

/-- Where no comment follows, none is read. -/
theorem leads_readLine (owner : Nat) (h : At N c rest m k) (hno : Uncommented rest) :
    Leads b (Comment.readLine owner) c fun a c' => a = none ∧ At N c' rest m k := by
  unfold Comment.readLine
  simp only [leads_bind, leads_get]
  have hnext : Uncommented (rest.drop 0) := hno
  refine (leads_follows Comment.reach h hnext).mono fun a c₁ hc₁ => ?_
  rw [hc₁.1, Bool.and_false, if_neg Bool.false_ne_true]
  exact ⟨rfl, hc₁.2⟩

end Comments

/-! ## Where a stream stands -/

/-- The stream stands at the mark `m` in front of `rest`, inside block collections with the
indentations `stack`, innermost first, and inside `level` flow collections; `allowed` tells whether
a key may start. -/
structure Stands (N : Nat) (s : TokenStream) (stack : List Int) (level : Nat) (allowed : Bool)
    (rest : List Char) (m : Mark) : Prop where
  started : s.started = true
  comments : s.comments = []
  stack_eq : s.indent :: s.indents = stack
  level_eq : s.flowLevel = level
  keys_length : s.keys.length = level + 1
  optional : ∀ k ∈ s.keys, k.required = false
  allowed_eq : s.keyAllowed = allowed
  shows : At N s.cursor rest m 0

/-- Whether a token may start here: there is no blank, no break and no comment. -/
structure Opens (rest : List Char) : Prop where
  blank : isSpaceOrTab (rest.headD endChar) = false
  isBreak : isBreak (rest.headD endChar) = false
  hash : (rest.headD endChar == '#') = false

theorem uncommented_cons {c : Char} {rest : List Char} (hblank : isSpaceOrTab c = false) (hhash : c ≠ '#') :
    Uncommented (c :: rest) := by
  unfold Uncommented
  rwa [List.dropWhile_cons_of_neg (by rw [hblank]; exact Bool.false_ne_true)]

theorem uncommented_space {rest : List Char} (h : Uncommented rest) : Uncommented (' ' :: rest) := by
  unfold Uncommented at h ⊢
  rwa [List.dropWhile_cons_of_pos (by rfl)]

theorem Opens.uncommented {rest : List Char} (h : Opens rest) : Uncommented rest := by
  cases rest with
  | nil => exact (by decide : endChar ≠ '#')
  | cons c rest => exact uncommented_cons h.blank (beq_eq_false_iff_ne.1 h.hash)

/-- The stream stands in front of blanks, or in front of the end of a line outside flow collections,
and `rest` starts at a mark after them. -/
inductive Nears (N : Nat) (s : TokenStream) (stack : List Int) (level : Nat) (rest : List Char) :
    Mark → Bool → Prop where
  | line {allowed : Bool} {m : Mark} {k : Nat} :
      Stands N s stack level allowed (spaces k ++ rest) m →
      Nears N s stack level rest (m.over (spaces k)) allowed
  | fresh {allowed : Bool} {m : Mark} {n : Nat} : level = 0 →
      Stands N s stack level allowed ('\n' :: (spaces n ++ rest)) m →
      Nears N s stack level rest ((m.past '\n').over (spaces n)) true

section Moving

variable {b : Prop} {N : Nat} {s : TokenStream} {stack : List Int} {level : Nat} {allowed : Bool}
  {rest : List Char} {m : Mark}

theorem Stands.moved {c : Cursor} {rest' : List Char} {m' : Mark}
    (h : Stands N s stack level allowed rest m) (hc : At N c rest' m' 0) :
    Stands N { s with cursor := c } stack level allowed rest' m' :=
  ⟨h.started, h.comments, h.stack_eq, h.level_eq, h.keys_length, h.optional, h.allowed_eq, hc⟩

theorem leads_adoptLineComment {Q : Unit → TokenStream → Prop} (h : s.comments = []) (hgo : Q () s) :
    Leads b adoptLineComment s Q := by
  unfold adoptLineComment
  rw [leads_modify, h]
  exact hgo

/-- The blanks in front of a token are passed over. -/
theorem leads_skipToToken_line {k fuel : Nat} {origin : Mark} (hopen : Opens rest)
    (h : Stands N s stack level allowed (spaces k ++ rest) m) :
    Leads b (skipToToken origin (fuel + 1)) s fun _ s' =>
      ∃ c, s' = { s with cursor := c } ∧ At N c rest (m.over (spaces k)) 1 := by
  have hspaces : ∀ p : Bool, ∀ ch ∈ spaces k, (ch == ' ' || (p && ch == '\t')) = true := by
    intro p ch hch
    rw [Scalar.mem_spaces hch]
    rfl
  -- tabs count as blanks only at some places, so both readings are covered
  have hstop : ∀ p : Bool, (rest.headD endChar == ' ' || (p && rest.headD endChar == '\t')) = false := by
    intro p
    obtain ⟨hspace, htab⟩ := Bool.or_eq_false_iff.1 hopen.blank
    rw [hspace, htab, Bool.and_false]
    rfl
  unfold skipToToken
  simp only [leads_bind, leads_reading, leads_get]
  refine (Read.leads_need h.shows 1).mono fun _ c₁ hc₁ => ?_
  rw [hc₁.1.marked, Bool.and_false, if_neg Bool.false_ne_true]
  simp only [leads_bind, leads_get, leads_reading, leads_pure]
  refine (Read.leads_takeWhile (hspaces _) (fun ch hch => by rw [Scalar.mem_spaces hch]; rfl) hc₁.2
    (hstop _)).mono fun _ c₂ hc₂ => ?_
  have hahead : c₂.ahead 0 = rest.headD endChar := hc₂.2.headD
  refine leads_adoptLineComment h.comments ?_
  simp only [hahead, hopen.hash, Bool.false_eq_true, if_false, leads_bind, leads_get, hopen.isBreak,
    leads_pure]
  exact ⟨c₂, rfl, hc₂.2⟩

/-- A line break in front of a token is passed over with the indentation after it, and a key may
start then. -/
theorem leads_skipToToken_fresh {fuel n : Nat} {origin : Mark} (hopen : Opens rest) (hlevel : level = 0)
    (h : Stands N s stack level allowed ('\n' :: (spaces n ++ rest)) m) :
    Leads b (skipToToken origin (fuel + 2)) s fun _ s' =>
      ∃ c, s' = { s with cursor := c, keyAllowed := true } ∧
        At N c rest ((m.past '\n').over (spaces n)) 1 := by
  have hstop : ∀ p : Bool, ('\n' == ' ' || (p && '\n' == '\t')) = false := by decide
  have hlevel' : (s.flowLevel == 0) = true := by
    rw [h.level_eq, hlevel]
    rfl
  unfold skipToToken
  simp only [leads_bind, leads_reading, leads_get]
  refine (Read.leads_need h.shows 1).mono fun _ c₁ hc₁ => ?_
  rw [hc₁.1.marked, Bool.and_false, if_neg Bool.false_ne_true]
  simp only [leads_bind, leads_get, leads_reading, leads_pure]
  have htext : At N c₁ ([] ++ '\n' :: (spaces n ++ rest)) m 0 := hc₁.2
  refine (Read.leads_takeWhile (List.forall_mem_nil _) (List.forall_mem_nil _) htext (hstop _)).mono
    fun _ c₂ hc₂ => ?_
  have hahead : c₂.ahead 0 = '\n' := hc₂.2.headD
  have hfeed : isBreak '\n' = true := by decide
  have hhash : ('\n' == '#') = false := by decide
  refine leads_adoptLineComment h.comments ?_
  simp only [hahead, hhash, Bool.false_eq_true, if_false, leads_bind, leads_get, hfeed, if_true,
    leads_reading, hlevel', leads_allowKey]
  refine (Read.leads_skipBreak hc₂.2 hfeed).mono fun _ c₃ hc₃ => ?_
  have hstands : Stands N { s with cursor := c₃, keyAllowed := true } stack level true
      (spaces n ++ rest) (m.past '\n') :=
    ⟨h.started, h.comments, h.stack_eq, h.level_eq, h.keys_length, h.optional, rfl,
      hc₃.mono (Nat.zero_le 1)⟩
  refine (leads_skipToToken_line hopen hstands).mono fun _ s' hs' => ?_
  obtain ⟨c₄, rfl, hc₄⟩ := hs'
  exact ⟨c₄, rfl, hc₄⟩

/-- The stream is moved to the next token. -/
theorem leads_skipToToken {origin : Mark} (hopen : Opens rest)
    (h : Nears N s stack level rest m allowed) :
    Leads b (skipToToken origin s.cursor.bound) s fun _ s' =>
      ∃ c, s' = { s with cursor := c, keyAllowed := allowed } ∧ At N c rest m 1 := by
  cases h with
  | @line allowed m k h =>
    have hroom := h.shows.room
    obtain ⟨fuel, hfuel⟩ : ∃ fuel, s.cursor.bound = fuel + 1 := ⟨s.cursor.bound - 1, by omega⟩
    rw [hfuel]
    refine (leads_skipToToken_line hopen h).mono fun _ s' hs' => ?_
    obtain ⟨c, rfl, hc⟩ := hs'
    refine ⟨c, ?_, hc⟩
    rw [← h.allowed_eq]
  | @fresh allowed m n hlevel h =>
    have hroom := h.shows.room
    obtain ⟨fuel, hfuel⟩ : ∃ fuel, s.cursor.bound = fuel + 2 := ⟨s.cursor.bound - 2, by omega⟩
    rw [hfuel]
    exact leads_skipToToken_fresh hopen hlevel h

/-! ## Ends of block collections -/

/-- The block collections right of a column end. -/
theorem blockEnds_spec {column : Int} (ls : List Int) : ∀ {m : Mark} {indent i : Int}
    {indents is : List Int}, indent :: indents = ls ++ i :: is → (∀ l ∈ ls, column < l) → i ≤ column →
    ∃ ends, blockEnds column [] m indent indents = (ends, i, is) ∧
      ends.map (·.kind) = List.replicate ls.length .blockEnd := by
  induction ls with
  | nil =>
    intro m indent i indents is heq _ hi
    obtain ⟨rfl, rfl⟩ := List.cons.inj heq
    refine ⟨[], ?_, rfl⟩
    unfold blockEnds
    split
    · rfl
    · rw [if_neg (by omega)]
  | cons l ls ih =>
    intro m indent i indents is heq hls hi
    rw [List.cons_append] at heq
    obtain ⟨rfl, rfl⟩ := List.cons.inj heq
    have hl := hls indent List.mem_cons_self
    have hrest := fun l' hl' => hls l' (List.mem_cons_of_mem _ hl')
    -- the outermost collection never ends, so there is one around this one
    obtain ⟨o, os, hos⟩ := List.exists_cons_of_ne_nil (List.append_ne_nil_of_right_ne_nil ls
      (List.cons_ne_nil i is))
    obtain ⟨ends, hends, hkinds⟩ := ih (m := endMark indent m.index m []) hos.symm hrest hi
    refine ⟨⟨.blockEnd, endMark indent m.index m [], endMark indent m.index m []⟩ :: ends, ?_, ?_⟩
    · rw [hos, blockEnds, if_pos hl]
      simp only [hends]
    · rw [List.map_cons, hkinds]
      rfl

/-- Leaving block collections puts their ends into the queue. -/
theorem leads_leaveBlocks {col : Int} {m : Mark} {ls is : List Int} {i : Int}
    {Q : Unit → TokenStream → Prop} (hcomments : s.comments = []) (hlevel : s.flowLevel = 0)
    (hstack : s.indent :: s.indents = ls ++ i :: is) (hls : ∀ l ∈ ls, col < l) (hi : i ≤ col)
    (hgo : ∀ ends : List Token, ends.map (·.kind) = List.replicate ls.length .blockEnd →
      Q () { s with indent := i, indents := is, queue := s.queue ++ ends }) :
    Leads b (leaveBlocks col m) s Q := by
  unfold leaveBlocks
  rw [leads_modify]
  cases ls with
  | nil =>
    obtain ⟨hindent, hindents⟩ := List.cons.inj hstack
    have hno : (s.flowLevel == 0 && decide (col < s.indent)) = false := by
      rw [hindent, decide_eq_false (by omega), Bool.and_false]
    have hsame := hgo [] rfl
    rw [← hindent, ← hindents, List.append_nil] at hsame
    rw [hno]
    exact hsame
  | cons l ls =>
    have hl : s.indent = l := (List.cons.inj hstack).1
    have hyes : (s.flowLevel == 0 && decide (col < s.indent)) = true := by
      rw [hl, decide_eq_true (hls l List.mem_cons_self), hlevel]
      rfl
    obtain ⟨ends, hends, hkinds⟩ := blockEnds_spec (l :: ls) (m := { m with index := m.index - 1 })
      hstack hls hi
    simp only [if_pos hyes, hcomments, List.reverse_nil, hends]
    have hdone := hgo ends hkinds
    rwa [hcomments] at hdone

theorem leads_leaveBlocks_flow {col : Int} {m : Mark} {Q : Unit → TokenStream → Prop}
    (hlevel : s.flowLevel ≠ 0) (hgo : Q () s) : Leads b (leaveBlocks col m) s Q := by
  unfold leaveBlocks
  rw [leads_modify, beq_eq_false_iff_ne.2 hlevel]
  exact hgo

/-! ## At a token -/

/-- What is done at the next token. -/
def atToken : Scan Unit := do
  reading (Read.need 4)
  let cur := (← get).cursor
  let c := cur.ahead 0
  if c == endChar then readStreamEnd
  else if cur.mark.column == 0 && c == '%' then readDirective
  else if cur.atDocumentMark then
    readDocumentMark (if c == '-' then .documentStart else .documentEnd)
  else readTokenAt c (cur.ahead 1)

theorem readToken_eq : readToken = (do
    reading (Read.need 1)
    if !(← get).started then readStreamStart
    else
      let before ← mark
      skipToToken before (← get).cursor.bound
      leaveBlocks ((← mark).column : Int) before
      atToken) := rfl

/-- How the token that starts with `c` is read, if it is no dash. -/
def readerOf (inFlow : Bool) (c d : Char) : Scan Unit := do
  if c == '[' then readFlowStart .flowSequenceStart
  else if c == '\x7b' then readFlowStart .flowMappingStart
  else if c == ']' then readFlowEnd .flowSequenceEnd
  else if c == '\x7d' then readFlowEnd .flowMappingEnd
  else if c == ',' then readFlowEntry
  else if c == '?' && (inFlow || isGap d) then readKey
  else if c == ':' && (inFlow || isGap d) then readValue
  else if c == '*' then readKeyPart (Property.readAnchor .alias)
  else if c == '&' then readKeyPart (Property.readAnchor .anchor)
  else if c == '!' then readKeyPart Property.readTag
  else if c == '|' && !inFlow then readBlockScalar true
  else if c == '>' && !inFlow then readBlockScalar false
  else if c == '\'' || c == '"' then readKeyPart (Scalar.readQuoted c)
  else if startsPlain inFlow c d then readPlain
  else fail .noToken (← mark)

theorem ite_bind {α : Type} {p : Prop} [Decidable p] (x y : Scan Unit) (f : Unit → Scan α) :
    (if p then x else y) >>= f = if p then x >>= f else y >>= f := by
  split <;> rfl

theorem readTokenAt_eq (c d : Char) : readTokenAt c d = (do
    let inFlow := decide (0 < (← get).flowLevel)
    if c == '-' && isGap d then readBlockEntry
    else
      let owner ← commentOwner c
      readerOf inFlow c d
      keep (← reading (Comment.readLine owner)).toList) := by
  unfold readerOf
  simp only [ite_bind]
  rfl

theorem Nears.leads_need {n : Nat} (h : Nears N s stack level rest m allowed) :
    Leads b (Read.need n) s.cursor fun _ c =>
      Nears N { s with cursor := c } stack level rest m allowed := by
  cases h with
  | line h => exact (Read.leads_need h.shows n).mono fun _ c hc => .line (h.moved hc.2)
  | fresh hlevel h => exact (Read.leads_need h.shows n).mono fun _ c hc => .fresh hlevel (h.moved hc.2)

theorem Nears.stands (h : Nears N s stack level rest m allowed) :
    ∃ a r m, Stands N s stack level a r m := by
  cases h with
  | line h => exact ⟨_, _, _, h⟩
  | fresh _ h => exact ⟨_, _, _, h⟩

/-- The stream is moved to the next token, and the ends of block collections are read on the way. -/
theorem leads_readToken {Q : Unit → TokenStream → Prop} {ls is : List Int} {i : Int}
    (hopen : Opens rest) (h : Nears N s (ls ++ i :: is) level rest m allowed)
    (hflow : level ≠ 0 → ls = []) (hls : ∀ l ∈ ls, (m.column : Int) < l)
    (hi : level = 0 → i ≤ (m.column : Int))
    (hgo : ∀ {s' : TokenStream} (ends : List Token), Stands N s' (i :: is) level allowed rest m →
      s'.queue = s.queue ++ ends → ends.map (·.kind) = List.replicate ls.length .blockEnd →
      s'.taken = s.taken → s'.keys = s.keys → Leads b atToken s' Q) :
    Leads b readToken s Q := by
  rw [readToken_eq]
  simp only [leads_bind, leads_reading, leads_get]
  refine h.leads_need.mono fun _ c hc => ?_
  obtain ⟨_, _, _, hs⟩ := hc.stands
  have hstarted : (!s.started) = false := by
    rw [show s.started = true from hs.started]
    rfl
  simp only [hstarted, Bool.false_eq_true, if_false, leads_bind, leads_mark, leads_get]
  refine (leads_skipToToken hopen hc).mono fun _ s₁ hs₁ => ?_
  obtain ⟨c₁, rfl, hc₁⟩ := hs₁
  rw [hc₁.mark]
  -- inside flow collections the column of a token ends nothing
  by_cases hlevel : level = 0
  · refine leads_leaveBlocks hs.comments (hs.level_eq.trans hlevel) hs.stack_eq hls (hi hlevel)
      fun ends hends => ?_
    exact hgo ends ⟨hs.started, hs.comments, rfl, hs.level_eq, hs.keys_length, hs.optional, rfl,
      hc₁.mono (Nat.zero_le 1)⟩ rfl hends rfl rfl
  · obtain rfl := hflow hlevel
    refine leads_leaveBlocks_flow (fun heq => hlevel (hs.level_eq.symm.trans heq)) ?_
    exact hgo [] ⟨hs.started, hs.comments, hs.stack_eq, hs.level_eq, hs.keys_length, hs.optional, rfl,
      hc₁.mono (Nat.zero_le 1)⟩ (List.append_nil _).symm rfl rfl rfl

/-- A token that is neither a directive nor a document marker is read by its first character. -/
theorem leads_atToken {Q : Unit → TokenStream → Prop} {ch : Char} {tail : List Char}
    (h : Stands N s stack level allowed (ch :: tail) m)
    (hmarker : 0 < m.column ∨ ch ≠ '%' ∧ Style.startsLikeMarker (ch :: tail) = false)
    (hgo : ∀ c, At N c (ch :: tail) m 4 →
      Leads b (readTokenAt ch (tail.headD endChar)) { s with cursor := c } Q) :
    Leads b atToken s Q := by
  unfold atToken
  simp only [leads_bind, leads_reading, leads_get]
  refine (Read.leads_need h.shows 4).mono fun _ c hc => ?_
  have hahead : c.ahead 0 = ch := hc.1.headD
  have hnext : c.ahead 1 = tail.headD endChar := by
    rw [hc.1.ahead (by omega)]
    cases tail <;> rfl
  have hend : (ch == endChar) = false := beq_eq_false_iff_ne.2 (ne_endChar hc.1.clear.head)
  have hdirective : (c.mark.column == 0 && ch == '%') = false := by
    rw [hc.1.mark, Bool.and_eq_false_iff, beq_eq_false_iff_ne, beq_eq_false_iff_ne]
    exact hmarker.imp Nat.ne_of_gt And.left
  have hdocument : c.atDocumentMark = false := by
    rw [hc.1.atDocumentMark]
    rcases hmarker with hcol | ⟨-, hno⟩
    · rw [beq_eq_false_iff_ne.2 (Nat.ne_of_gt hcol), Bool.false_and, Bool.false_and]
    · rw [hno, Bool.and_false]
  simp only [hahead, hend, hdirective, hdocument, Bool.false_eq_true, if_false, hnext]
  exact hgo c hc.1

/-- A token is read, and no comment after it. -/
theorem leads_readTokenAt {Q : Unit → TokenStream → Prop} {ch d : Char}
    (hdash : (ch == '-' && isGap d) = false)
    (hgo : Leads b (readerOf (decide (0 < s.flowLevel)) ch d) s fun _ s' =>
      ∃ rest m, At N s'.cursor rest m 0 ∧ Uncommented rest ∧
        ∀ c, At N c rest m 0 → Q () { s' with cursor := c }) :
    Leads b (readTokenAt ch d) s Q := by
  rw [readTokenAt_eq]
  simp only [leads_bind, leads_get, hdash, Bool.false_eq_true, if_false]
  unfold commentOwner
  simp only [leads_bind, leads_get, leads_pure, leads_reading]
  refine hgo.mono fun _ s' hs' => ?_
  obtain ⟨rest, m, hat, hno, hdone⟩ := hs'
  refine (leads_readLine _ hat hno).mono fun a c hc => ?_
  rw [hc.1]
  exact hdone c hc.2

end Moving

/-! ## Pending keys -/

section Keys

variable {b : Prop} {N : Nat} {s : TokenStream} {stack : List Int} {level : Nat} {allowed : Bool}
  {rest : List Char} {m : Mark}

/-- The pending keys with that of the current level dropped. -/
def dropped : List PendingKey → List PendingKey
  | [] => []
  | k :: ks => { k with possible := false } :: ks

theorem length_dropped (ks : List PendingKey) : (dropped ks).length = ks.length := by
  cases ks <;> rfl

theorem optional_dropped {ks : List PendingKey} (h : ∀ k ∈ ks, k.required = false) :
    ∀ k ∈ dropped ks, k.required = false := by
  cases ks with
  | nil => exact h
  | cons k ks => exact List.forall_mem_cons.2 (List.forall_mem_cons.1 h)

/-- A pending key that need not be a key is dropped. -/
theorem leads_dropKey {Q : Unit → TokenStream → Prop} (h : ∀ k ∈ s.keys, k.required = false)
    (hgo : ∀ watched, Q () { s with keys := dropped s.keys, watched := watched }) :
    Leads b dropKey s Q := by
  unfold dropKey
  simp only [leads_bind, leads_get]
  cases hkeys : s.keys with
  | nil =>
    have hsame := hgo s.watched
    rw [hkeys] at hsame
    simp only [leads_pure]
    have hs : s = { s with keys := [] } := by rw [← hkeys]
    rw [hs]
    exact hsame
  | cons k ks =>
    have hk : k.required = false := h k (hkeys ▸ List.mem_cons_self)
    dsimp only
    cases hpossible : k.possible with
    | false =>
      have hsame := hgo s.watched
      have hdrop : dropped s.keys = s.keys := by
        rw [hkeys]
        show { k with possible := false } :: ks = k :: ks
        rw [← hpossible]
      rw [hdrop] at hsame
      simp only [Bool.false_eq_true, if_false, leads_pure]
      exact hsame
    | true =>
      have hdone := hgo (s.watched.filter (·.1 != k.number))
      simp only [hkeys, dropped, hk] at hdone
      simp only [if_true, hk, Bool.false_eq_true, if_false, leads_set]
      exact hdone

/-- The pending key at the current place. -/
def keyHere (s : TokenStream) : PendingKey :=
  { possible := true, required := false, number := s.nextNumber, mark := s.cursor.mark }

/-- The current place is kept as a pending key that need not be a key, if a key may start there. -/
theorem leads_saveKey {Q : Unit → TokenStream → Prop} {k₀ : PendingKey} {ks₀ : List PendingKey}
    (hkeys : s.keys = k₀ :: ks₀) (h : ∀ k ∈ s.keys, k.required = false)
    (hplace : s.flowLevel = 0 → s.indent ≠ (s.cursor.mark.column : Int))
    (hgo : ∀ k watched, k.required = false → (s.keyAllowed = true → k = keyHere s) →
      Q () { s with keys := k :: ks₀, watched := watched }) :
    Leads b saveKey s Q := by
  -- a key is required only at the indentation of its own block mapping
  have hrequired : (s.flowLevel == 0 && s.indent == (s.cursor.mark.column : Int)) = false := by
    rw [Bool.and_eq_false_iff, beq_eq_false_iff_ne, beq_eq_false_iff_ne]
    by_cases hlevel : s.flowLevel = 0
    · exact Or.inr (hplace hlevel)
    · exact Or.inl hlevel
  unfold saveKey
  simp only [leads_bind, leads_get]
  cases hallowed : s.keyAllowed with
  | false =>
    have hsame := hgo k₀ s.watched (h k₀ (hkeys ▸ List.mem_cons_self)) fun heq => by
      rw [hallowed] at heq
      cases heq
    rw [← hkeys] at hsame
    simp only [Bool.false_eq_true, if_false, leads_pure]
    exact hsame
  | true =>
    simp only [if_true, leads_bind, leads_get, leads_set]
    refine leads_dropKey h fun watched => ?_
    rw [hkeys]
    simp only [hrequired]
    exact hgo _ _ rfl fun _ => rfl

end Keys

/-! ## Tokens of the notation -/

/-- Tokens of these kinds have been read since. -/
def Pushes (s s' : TokenStream) (ks : List TokenKind) : Prop :=
  s'.taken = s.taken ∧ ∃ ts : List Token, s'.queue = s.queue ++ ts ∧ ts.map (·.kind) = ks

section Marks

variable {b : Prop} {N : Nat} {s : TokenStream} {level column : Nat} {allowed : Bool}
  {tail : List Char} {m : Mark} {i : Int} {is : List Int} {ch : Char} {kind : TokenKind}

theorem exists_keys (h : s.keys.length = level + 1) : ∃ k ks, s.keys = k :: ks ∧ ks.length = level := by
  cases hkeys : s.keys with
  | nil =>
    rw [hkeys] at h
    cases h
  | cons k ks =>
    rw [hkeys] at h
    exact ⟨k, ks, rfl, Nat.succ.inj h⟩

theorem Mark.column_past {ch : Char} (h : isBreak ch = false) (m : Mark) :
    (m.past ch).column = m.column + 1 := by
  unfold Mark.past
  rw [h]
  rfl

/-- A mark of one character is read. -/
theorem leads_readMark_one {Q : Unit → TokenStream → Prop} {n : Nat} (hch : isBreak ch = false)
    (h : At N s.cursor (ch :: tail) m (n + 1))
    (hgo : ∀ c t, At N c tail (m.past ch) n → t.kind = kind →
      Q () { s with cursor := c, queue := s.queue ++ [t] }) :
    Leads b (readMark kind 1) s Q := by
  unfold readMark
  simp only [leads_bind, leads_mark, leads_reading, leads_push]
  exact hgo _ _ (h.skip hch) rfl

/-- A flow collection starts. -/
theorem leads_readFlowStart (hch : isBreak ch = false)
    (h : Stands N s (i :: is) level allowed (ch :: tail) m) (hat : At N s.cursor (ch :: tail) m 1)
    (hplace : level = 0 → i ≠ (m.column : Int)) (hdepth : level < maxDepth) :
    Leads b (readFlowStart kind) s fun _ s' =>
      Stands N s' (i :: is) (level + 1) true tail (m.past ch) ∧ Pushes s s' [kind] := by
  obtain ⟨k₀, ks₀, hkeys, hlen⟩ := exists_keys h.keys_length
  obtain ⟨hindent, -⟩ := List.cons.inj h.stack_eq
  unfold readFlowStart
  simp only [leads_bind, leads_allowKey]
  refine leads_saveKey hkeys h.optional ?_ fun k watched hk _ => ?_
  · intro hlevel
    rw [hindent, hat.mark]
    exact hplace (h.level_eq.symm.trans hlevel)
  · unfold enterFlow
    simp only [leads_bind, leads_get, leads_set]
    by_cases hdeep : maxDepth < s.flowLevel + 1
    · rw [h.level_eq] at hdeep
      omega
    · rw [if_neg hdeep, leads_pure]
      refine leads_readMark_one hch hat fun c t hc ht => ⟨?_, rfl, [t], rfl, ?_⟩
      · refine ⟨h.started, h.comments, h.stack_eq, ?_, ?_, ?_, rfl, hc⟩
        · show s.flowLevel + 1 = level + 1
          rw [h.level_eq]
        · show (_ :: k :: ks₀).length = level + 1 + 1
          rw [List.length_cons, List.length_cons, hlen]
        · refine List.forall_mem_cons.2 ⟨rfl, List.forall_mem_cons.2 ⟨hk, fun k' hk' => ?_⟩⟩
          exact h.optional k' (hkeys ▸ List.mem_cons_of_mem _ hk')
      · rw [List.map_singleton, ht]

/-- A flow collection ends. -/
theorem leads_readFlowEnd (hch : isBreak ch = false)
    (h : Stands N s (i :: is) (level + 1) allowed (ch :: tail) m)
    (hat : At N s.cursor (ch :: tail) m 1) :
    Leads b (readFlowEnd kind) s fun _ s' =>
      Stands N s' (i :: is) level false tail (m.past ch) ∧ Pushes s s' [kind] := by
  obtain ⟨k₀, ks₀, hkeys, hlen⟩ := exists_keys h.keys_length
  unfold readFlowEnd
  simp only [leads_bind, leads_allowKey]
  refine leads_dropKey h.optional fun watched => ?_
  unfold leaveFlow
  rw [leads_modify, hkeys]
  simp only [h.level_eq, dropped]
  refine leads_readMark_one hch hat fun c t hc ht => ⟨?_, rfl, [t], rfl, ?_⟩
  · refine ⟨h.started, h.comments, h.stack_eq, rfl, hlen, ?_, rfl, hc⟩
    exact fun k' hk' => h.optional k' (hkeys ▸ List.mem_cons_of_mem _ hk')
  · rw [List.map_singleton, ht]

/-- An entry of a flow collection starts. -/
theorem leads_readFlowEntry (hch : isBreak ch = false)
    (h : Stands N s (i :: is) level allowed (ch :: tail) m) (hat : At N s.cursor (ch :: tail) m 1) :
    Leads b readFlowEntry s fun _ s' =>
      Stands N s' (i :: is) level true tail (m.past ch) ∧ Pushes s s' [.flowEntry] := by
  unfold readFlowEntry
  simp only [leads_bind, leads_allowKey]
  refine leads_dropKey h.optional fun watched => ?_
  refine leads_readMark_one hch hat fun c t hc ht => ⟨?_, rfl, [t], rfl, ?_⟩
  · exact ⟨h.started, h.comments, h.stack_eq, h.level_eq, (length_dropped _).trans h.keys_length,
      optional_dropped h.optional, rfl, hc⟩
  · rw [List.map_singleton, ht]

/-- A block collection starts right of the indentation, unless there are too many. -/
theorem leads_enterBlock {Q : Unit → TokenStream → Prop} {number : Option Nat} {mk : Mark}
    (hlevel : s.flowLevel = 0) (hstack : s.indent :: s.indents = i :: is) (hi : i < (column : Int))
    (hdepth : b ∨ (i :: is).length ≤ maxDepth)
    (hgo : (i :: is).length ≤ maxDepth → Leads b (match number with
      | some n => insertAt n ⟨kind, mk, mk⟩
      | none => push ⟨kind, mk, mk⟩)
      { s with indents := i :: is, indent := (column : Int) } Q) :
    Leads b (enterBlock column number kind mk) s Q := by
  obtain ⟨rfl, rfl⟩ := List.cons.inj hstack
  have henter : (s.flowLevel == 0 && decide (s.indent < (column : Int))) = true := by
    rw [hlevel, decide_eq_true hi]
    rfl
  unfold enterBlock
  simp only [leads_bind, leads_get, henter, if_true, leads_set]
  by_cases hdeep : maxDepth < s.indents.length + 1
  · rw [if_pos hdeep, leads_bind, leads_fail]
    exact hdepth.resolve_right (by rw [List.length_cons]; omega)
  · rw [if_neg hdeep]
    exact hgo (by rw [List.length_cons]; omega)

/-- Inside a flow collection, and at its own indentation, no block collection starts. -/
theorem leads_enterBlock_not {Q : Unit → TokenStream → Prop} {number : Option Nat} {mk : Mark}
    (h : s.flowLevel ≠ 0 ∨ (column : Int) ≤ s.indent) (hgo : Q () s) :
    Leads b (enterBlock column number kind mk) s Q := by
  have henter : (s.flowLevel == 0 && decide (s.indent < (column : Int))) = false := by
    rw [Bool.and_eq_false_iff, beq_eq_false_iff_ne, decide_eq_false_iff_not]
    exact h.imp_right fun hle => by omega
  unfold enterBlock
  simp only [leads_bind, leads_get, henter, Bool.false_eq_true, if_false, leads_pure]
  exact hgo

/-- The first dash of a block sequence starts it. -/
theorem leads_readBlockEntry_first (h : Stands N s (i :: is) 0 true ('-' :: tail) m)
    (hat : At N s.cursor ('-' :: tail) m 1) (hi : i < (m.column : Int))
    (hdepth : b ∨ (i :: is).length ≤ maxDepth) :
    Leads b readBlockEntry s fun _ s' =>
      (i :: is).length ≤ maxDepth ∧ Stands N s' ((m.column : Int) :: i :: is) 0 true tail (m.past '-') ∧
        Pushes s s' [.blockSequenceStart, .blockEntry] := by
  have hch : isBreak '-' = false := by decide
  unfold readBlockEntry
  simp only [leads_bind, leads_get, h.level_eq, h.allowed_eq, beq_self_eq_true, if_true, Bool.not_true,
    Bool.false_eq_true, if_false, leads_allowKey, hat.mark]
  refine leads_enterBlock h.level_eq h.stack_eq hi hdepth fun hle => ?_
  simp only [leads_push]
  refine leads_dropKey h.optional fun watched => ?_
  refine leads_readMark_one hch hat fun c t hc ht =>
    ⟨hle, ?_, rfl, [⟨.blockSequenceStart, m, m⟩, t], ?_, ?_⟩
  · exact ⟨h.started, h.comments, rfl, h.level_eq, (length_dropped _).trans h.keys_length,
      optional_dropped h.optional, rfl, hc⟩
  · show (s.queue ++ [_]) ++ [t] = _
    rw [List.append_assoc]
    rfl
  · simp only [List.map_cons, List.map_nil, ht]

/-- Another dash at the indentation of a block sequence. -/
theorem leads_readBlockEntry_next (h : Stands N s (i :: is) 0 true ('-' :: tail) m)
    (hat : At N s.cursor ('-' :: tail) m 1) (hi : i = (m.column : Int)) :
    Leads b readBlockEntry s fun _ s' =>
      Stands N s' (i :: is) 0 true tail (m.past '-') ∧ Pushes s s' [.blockEntry] := by
  have hch : isBreak '-' = false := by decide
  obtain ⟨hindent, -⟩ := List.cons.inj h.stack_eq
  unfold readBlockEntry
  simp only [leads_bind, leads_get, h.level_eq, h.allowed_eq, beq_self_eq_true, if_true, Bool.not_true,
    Bool.false_eq_true, if_false, leads_allowKey, hat.mark]
  refine leads_enterBlock_not (Or.inr (Int.le_of_eq (hi.symm.trans hindent.symm))) ?_
  refine leads_dropKey h.optional fun watched => ?_
  refine leads_readMark_one hch hat fun c t hc ht => ⟨?_, rfl, [t], rfl, ?_⟩
  · exact ⟨h.started, h.comments, h.stack_eq, h.level_eq, (length_dropped _).trans h.keys_length,
      optional_dropped h.optional, rfl, hc⟩
  · rw [List.map_singleton, ht]

end Marks

/-! ## Scalars -/

section Scalars

variable {b : Prop} {N : Nat} {s : TokenStream} {level : Nat} {allowed : Bool}
  {cs rest : List Char} {m : Mark} {i : Int} {is : List Int}

/-- A quoted scalar is read. -/
theorem leads_readQuoted {quote : Char} {W : List Char} (hquote : quote = '\'' ∨ quote = '"')
    (hclose : quote = '\'' → rest.headD endChar ≠ '\'') (hcontent : Scalar.Content quote W cs)
    (h : Stands N s (i :: is) level allowed (quote :: (W ++ quote :: rest)) m)
    (hat : At N s.cursor (quote :: (W ++ quote :: rest)) m 1)
    (hplace : level = 0 → i ≠ (m.column : Int)) :
    Leads b (readKeyPart (Scalar.readQuoted quote)) s fun _ s' =>
      (∃ m', 0 < m'.column ∧ Stands N s' (i :: is) level false rest m') ∧
        Pushes s s' [.scalar (Utf8.encode cs) false] := by
  obtain ⟨k₀, ks₀, hkeys, hlen⟩ := exists_keys h.keys_length
  obtain ⟨hindent, -⟩ := List.cons.inj h.stack_eq
  unfold readKeyPart
  simp only [leads_bind, leads_allowKey, leads_reading, leads_push]
  refine leads_saveKey hkeys h.optional ?_ fun k watched hk _ => ?_
  · intro hlevel
    rw [hindent, hat.mark]
    exact hplace (h.level_eq.symm.trans hlevel)
  · refine (Scalar.leads_readQuoted hquote hclose hcontent hat).mono fun t c hc => ?_
    obtain ⟨hkind, m', hcol, hc⟩ := hc
    refine ⟨⟨m', hcol, h.started, h.comments, h.stack_eq, h.level_eq, ?_, ?_, rfl, hc⟩, rfl, [t], rfl, ?_⟩
    · exact congrArg Nat.succ hlen
    · refine List.forall_mem_cons.2 ⟨hk, fun k' hk' => ?_⟩
      exact h.optional k' (hkeys ▸ List.mem_cons_of_mem _ hk')
    · rw [List.map_singleton, hkind]

/-- A literal block is read, and the line break after it. -/
theorem leads_readBlockScalar {indent n : Nat} (hi : 0 ≤ i) (hindent : (indent : Int) = i + 2)
    (hn : n < indent) (hne : cs ≠ [])
    (hhead : isSpaceOrTab (rest.headD endChar) = false ∧ isBreak (rest.headD endChar) = false)
    (htab : cs.head? = some '\t' → b)
    (h : Stands N s (i :: is) 0 allowed
      (Style.literalForm indent cs ++ (Scalar.closing cs ++ (spaces n ++ rest))) m)
    (hat : At N s.cursor
      (Style.literalForm indent cs ++ (Scalar.closing cs ++ (spaces n ++ rest))) m 1) :
    Leads b (readBlockScalar true) s fun _ s' =>
      cs.head? ≠ some '\t' ∧ (∃ m', m'.column = n ∧ Stands N s' (i :: is) 0 true rest m') ∧
        Pushes s s' [.scalar (Utf8.encode (Scalar.readBack cs)) false] := by
  obtain ⟨rfl, rfl⟩ := List.cons.inj h.stack_eq
  unfold readBlockScalar
  simp only [leads_bind, leads_allowKey, leads_get, leads_reading, leads_push]
  refine leads_dropKey h.optional fun watched => ?_
  refine (Scalar.leads_readBlock hi hindent hn hne hhead htab hat).mono fun a c hc => ?_
  obtain ⟨hno, hkind, hcomment, m', hcol, hc⟩ := hc
  rw [hcomment, Option.toList_none, leads_keep_nil]
  refine ⟨hno, ⟨m', hcol, h.started, h.comments, h.stack_eq, h.level_eq, ?_, ?_, rfl,
    hc.mono (Nat.zero_le 1)⟩, rfl, [a.1], rfl, ?_⟩
  · exact (length_dropped _).trans h.keys_length
  · exact optional_dropped h.optional
  · rw [List.map_singleton, hkind]

/-- How a plain scalar is read from the stream, given how it is read from its cursor. -/
theorem leads_readPlain {Q : Unit → TokenStream → Prop}
    (h : Stands N s (i :: is) level allowed rest m) (hplace : level = 0 → i ≠ (m.column : Int))
    (hread : Leads b (Scalar.readPlain (decide (0 < level)) (i + 1)) s.cursor fun a c =>
      ∀ k ks watched, s.keys.length = (k :: ks).length → (∀ k' ∈ k :: ks, k'.required = false) →
        (allowed = true → k = keyHere s) →
        Q () { s with cursor := c, keys := k :: ks, watched := watched, keyAllowed := a.2,
                      queue := s.queue ++ [a.1] }) :
    Leads b readPlain s Q := by
  obtain ⟨k₀, ks₀, hkeys, hlen⟩ := exists_keys h.keys_length
  obtain ⟨rfl, rfl⟩ := List.cons.inj h.stack_eq
  obtain rfl := h.level_eq
  unfold readPlain
  simp only [leads_bind, leads_allowKey, leads_get, leads_reading]
  refine leads_saveKey hkeys h.optional ?_ fun k watched hk hhere => ?_
  · intro hlevel
    rw [h.shows.mark]
    exact hplace hlevel
  · refine hread.mono fun a c hc => ?_
    have hlength : s.keys.length = (k :: ks₀).length := by rw [hkeys]; rfl
    have hoptional : ∀ k' ∈ k :: ks₀, k'.required = false :=
      List.forall_mem_cons.2 ⟨hk, fun k' hk' => h.optional k' (hkeys ▸ List.mem_cons_of_mem _ hk')⟩
    have hdone := hc k ks₀ watched hlength hoptional fun ha => hhere (h.allowed_eq.trans ha)
    -- a key may start behind the scalar if a break was read after it
    cases ha : a.2 with
    | false =>
      rw [ha] at hdone
      simp only [Bool.false_eq_true, if_false]
      exact hdone
    | true =>
      rw [ha] at hdone
      simp only [if_true]
      exact hdone

end Scalars

/-! ## Keys and values -/

/-- The last token of the queue is a key if a colon follows: its place is kept as the pending
key. -/
structure Pending (s : TokenStream) (q : List Token) (t : Token) (k : PendingKey) : Prop where
  queue : s.queue = q ++ [t]
  number : k.number = s.taken + q.length
  head : s.keys.head? = some k
  possible : k.possible = true
  lapsed : hasLapsed k s.cursor.mark = false

theorem insertIdx_length {α : Type} (q r : List α) (x : α) :
    (q ++ r).insertIdx q.length x = q ++ x :: r := by
  induction q with
  | nil => rfl
  | cons y q ih => exact congrArg (y :: ·) ih

section Values

variable {b : Prop} {N : Nat} {s : TokenStream} {level : Nat} {tail : List Char} {m : Mark} {i : Int}
  {is : List Int} {q r : List Token} {t : Token} {k : PendingKey}

/-- The pending key of the innermost collection is that of the last token. -/
theorem Pending.keys_eq (hp : Pending s q t k) (h : s.keys.length = level + 1) :
    ∃ ks, s.keys = k :: ks ∧ ks.length = level := by
  obtain ⟨k', ks, hkeys, hlen⟩ := exists_keys h
  obtain rfl : k' = k := Option.some.inj (by rw [← hp.head, hkeys, List.head?_cons])
  exact ⟨ks, hkeys, hlen⟩

theorem leads_insertAt {Q : Unit → TokenStream → Prop} {number : Nat} (hqueue : s.queue = q ++ r)
    (hnumber : number = s.taken + q.length) (u : Token)
    (hgo : Q () { s with queue := q ++ u :: r }) : Leads b (insertAt number u) s Q := by
  have hplace : number - s.taken = q.length := by omega
  unfold insertAt
  rw [leads_modify, if_neg (by omega), hplace, hqueue, insertIdx_length]
  exact hgo

theorem leads_keyStands (h : Pending s q t k) {Q : Bool → TokenStream → Prop} (hgo : Q true s) :
    Leads b (keyStands s.flowLevel) s Q := by
  have hkey : s.keys[s.flowLevel - s.flowLevel]? = some k := by
    rw [Nat.sub_self, ← List.head?_eq_getElem?]
    exact h.head
  unfold keyStands
  simp only [leads_bind, leads_get, hkey, h.possible, Bool.not_true, Bool.false_eq_true, if_false,
    h.lapsed, leads_pure]
  exact hgo

/-- In a flow collection the colon puts a key token in front of the key. -/
theorem leads_readValue_flow {allowed : Bool} (hp : Pending s q t k)
    (h : Stands N s (i :: is) (level + 1) allowed (':' :: tail) m)
    (hat : At N s.cursor (':' :: tail) m 1) :
    Leads b readValue s fun _ s' =>
      Stands N s' (i :: is) (level + 1) false tail (m.past ':') ∧ s'.taken = s.taken ∧
        ∃ u v : Token, s'.queue = q ++ [u] ++ t :: [v] ∧ u.kind = .key ∧ v.kind = .value := by
  obtain ⟨ks, hkeys, hlen⟩ := hp.keys_eq h.keys_length
  have hch : isBreak ':' = false := by decide
  unfold readValue
  simp only [leads_bind, leads_get]
  refine leads_keyStands hp ?_
  simp only [if_true, leads_bind, leads_get, hkeys, List.headD_cons]
  refine leads_insertAt hp.queue hp.number _ ?_
  refine leads_enterBlock_not (Or.inl ?_) ?_
  · show s.flowLevel ≠ 0
    rw [h.level_eq]
    exact Nat.succ_ne_zero _
  · rw [leads_modify]
    refine leads_readMark_one hch hat fun c v hc hv =>
      ⟨?_, rfl, ⟨.key, k.mark, k.mark⟩, v, ?_, rfl, hv⟩
    · refine ⟨h.started, h.comments, h.stack_eq, h.level_eq, ?_, ?_, rfl, hc⟩
      · show (_ :: s.keys.drop 1).length = level + 1 + 1
        rw [hkeys, List.drop_one, List.tail_cons, List.length_cons, hlen]
      · refine List.forall_mem_cons.2 ⟨h.optional k (hkeys ▸ List.mem_cons_self), ?_⟩
        exact fun k' hk' => h.optional k' (List.mem_of_mem_drop hk')
    · simp

/-- Outside flow collections it also starts a block mapping, at the column of the key. -/
theorem leads_readValue_block {allowed : Bool} {column : Nat} (hp : Pending s q t k)
    (hcolumn : k.mark.column = column) (h : Stands N s (i :: is) 0 allowed (':' :: tail) m)
    (hat : At N s.cursor (':' :: tail) m 1) (hi : i < (column : Int))
    (hdepth : b ∨ (i :: is).length ≤ maxDepth) :
    Leads b readValue s fun _ s' =>
      (i :: is).length ≤ maxDepth ∧
        Stands N s' ((column : Int) :: i :: is) 0 false tail (m.past ':') ∧ s'.taken = s.taken ∧
        ∃ u v w : Token, s'.queue = q ++ [u, v] ++ t :: [w] ∧ u.kind = .blockMappingStart ∧
          v.kind = .key ∧ w.kind = .value := by
  obtain ⟨ks, hkeys, hlen⟩ := hp.keys_eq h.keys_length
  have hch : isBreak ':' = false := by decide
  unfold readValue
  simp only [leads_bind, leads_get]
  refine leads_keyStands hp ?_
  simp only [if_true, leads_bind, leads_get, hkeys, List.headD_cons, hcolumn]
  refine leads_insertAt hp.queue hp.number _ ?_
  refine leads_enterBlock h.level_eq h.stack_eq hi hdepth fun hle => ?_
  -- the start of the mapping goes in front of the key that was just put in
  refine leads_insertAt (r := ⟨.key, k.mark, k.mark⟩ :: [t]) (by rfl) (by exact hp.number) _ ?_
  rw [leads_modify]
  refine leads_readMark_one hch hat fun c w hc hw =>
    ⟨hle, ?_, rfl, ⟨.blockMappingStart, k.mark, k.mark⟩, ⟨.key, k.mark, k.mark⟩, w, ?_, rfl, rfl, hw⟩
  · refine ⟨h.started, h.comments, rfl, h.level_eq, ?_, ?_, rfl, hc⟩
    · show (_ :: s.keys.drop 1).length = 0 + 1
      rw [hkeys, List.drop_one, List.tail_cons, List.length_cons, hlen]
    · refine List.forall_mem_cons.2 ⟨h.optional k (hkeys ▸ List.mem_cons_self), ?_⟩
      exact fun k' hk' => h.optional k' (List.mem_of_mem_drop hk')
  · simp

end Values

/-! ## Documents and the stream -/

section Documents

variable {b : Prop} {N : Nat} {s : TokenStream} {allowed : Bool} {rest : List Char} {m : Mark}
  {ls : List Int}

/-- The end of the stream has been read, and is read again whenever more is asked for. -/
structure Ended (N : Nat) (s : TokenStream) : Prop where
  stands : ∃ m, Stands N s [-1] 0 false [] m
  lapsed : ∀ k ∈ s.keys, k.possible = false

theorem exists_split (column : Nat) : ∀ ls : List Int, (∀ l ∈ ls, -1 < l) →
    ∃ ls₁ ls₂ i is, ls ++ [-1] = ls₁ ++ i :: is ∧ i :: is = ls₂ ++ [-1] ∧ ls = ls₁ ++ ls₂ ∧
      (∀ l ∈ ls₁, (column : Int) < l) ∧ i ≤ (column : Int) := by
  intro ls
  induction ls with
  | nil => exact fun _ => ⟨[], [], -1, [], rfl, rfl, rfl, nofun, by omega⟩
  | cons l ls ih =>
    intro h
    by_cases hl : (column : Int) < l
    · obtain ⟨ls₁, ls₂, i, is, hsplit, hrest, rfl, hls, hi⟩ :=
        ih fun l' hl' => h l' (List.mem_cons_of_mem _ hl')
      exact ⟨l :: ls₁, ls₂, i, is, congrArg (l :: ·) hsplit, hrest, rfl,
        List.forall_mem_cons.2 ⟨hl, hls⟩, hi⟩
    · exact ⟨[], l :: ls, l, ls ++ [-1], rfl, rfl, rfl, nofun, by omega⟩

/-- In front of what ends a document all block collections end. -/
theorem leads_readToken_outer {Q : Unit → TokenStream → Prop} (hopen : Opens rest)
    (h : Nears N s (ls ++ [-1]) 0 rest m allowed) (hls : ∀ l ∈ ls, -1 < l)
    (hgo : ∀ {s' : TokenStream} (ls' : List Int) (ends : List Token),
      Stands N s' (ls' ++ [-1]) 0 allowed rest m → (∀ l ∈ ls', -1 < l) →
      s'.taken = s.taken → s'.queue = s.queue ++ ends →
      ends.map (·.kind) ++ List.replicate ls'.length TokenKind.blockEnd =
        List.replicate ls.length TokenKind.blockEnd →
      Leads b atToken s' Q) :
    Leads b readToken s Q := by
  obtain ⟨ls₁, ls₂, i, is, hsplit, hrest, rfl, hls₁, hi⟩ := exists_split m.column ls hls
  rw [hsplit] at h
  refine leads_readToken hopen h (fun hne => absurd rfl hne) hls₁ (fun _ => hi)
    fun ends hs' hqueue hkinds htaken _ => ?_
  rw [hrest] at hs'
  refine hgo ls₂ ends hs' (fun l hl => hls l (List.mem_append_right _ hl)) htaken hqueue ?_
  rw [hkinds, List.length_append, List.replicate_append_replicate]

theorem Pushes.trans {s₁ s₂ s₃ : TokenStream} {ks ks' : List TokenKind} (h : Pushes s₁ s₂ ks)
    (h' : Pushes s₂ s₃ ks') : Pushes s₁ s₃ (ks ++ ks') := by
  obtain ⟨htaken, ts, hqueue, hkinds⟩ := h
  obtain ⟨htaken', ts', hqueue', hkinds'⟩ := h'
  refine ⟨htaken'.trans htaken, ts ++ ts', ?_, ?_⟩
  · rw [hqueue', hqueue, List.append_assoc]
  · rw [List.map_append, hkinds, hkinds']

theorem lapsed_dropped {ks : List PendingKey} (h : ks.length = 1) :
    ∀ k ∈ dropped ks, k.possible = false := by
  obtain ⟨k, rfl⟩ := List.length_eq_one_iff.1 h
  exact List.forall_mem_cons.2 ⟨rfl, nofun⟩

/-- The token of the end of the stream is read, at the start of a line. -/
theorem leads_readStreamEnd (h : Stands N s (ls ++ [-1]) 0 allowed [] m) (hls : ∀ l ∈ ls, -1 < l) :
    Leads b readStreamEnd s fun _ s' =>
      Ended N s' ∧ Pushes s s' (List.replicate ls.length TokenKind.blockEnd ++ [TokenKind.streamEnd]) := by
  have hline : ∃ c' m', At N c' [] m' 0 ∧
      (if s.cursor.mark.column == 0 then s
        else { s with cursor.mark := { s.cursor.mark with
          column := 0, line := s.cursor.mark.line + 1 } }) = { s with cursor := c' } := by
    split
    · exact ⟨s.cursor, m, h.shows, rfl⟩
    · have hat := h.shows
      refine ⟨{ s.cursor with mark := { s.cursor.mark with
          column := 0, line := s.cursor.mark.line + 1 } },
        ⟨s.cursor.mark.index, s.cursor.mark.line + 1, 0⟩, ?_, rfl⟩
      exact ⟨⟨hat.text, hat.damage, hat.trouble, hat.marked, hat.clear, hat.bound, hat.fits, rfl⟩, hat.hand⟩
  obtain ⟨c', m', hc', hstate⟩ := hline
  unfold readStreamEnd
  simp only [leads_bind, leads_modify, leads_mark, leads_allowKey, leads_push]
  rw [hstate]
  refine leads_leaveBlocks h.comments h.level_eq h.stack_eq hls (Int.le_refl _) fun ends hends => ?_
  refine leads_dropKey h.optional fun watched => ?_
  refine ⟨⟨⟨m', ?_⟩, lapsed_dropped h.keys_length⟩, rfl, ends ++ [⟨.streamEnd, c'.mark, c'.mark⟩], ?_, ?_⟩
  · exact ⟨h.started, h.comments, rfl, h.level_eq, (length_dropped _).trans h.keys_length,
      optional_dropped h.optional, rfl, hc'⟩
  · exact List.append_assoc _ _ _
  · rw [List.map_append, hends]
    rfl

/-- The stream ends. -/
theorem leads_readToken_end (h : Nears N s (ls ++ [-1]) 0 [] m allowed)
    (hls : ∀ l ∈ ls, -1 < l) :
    Leads b readToken s fun _ s' =>
      Ended N s' ∧ Pushes s s' (List.replicate ls.length TokenKind.blockEnd ++ [TokenKind.streamEnd]) := by
  have hopen : Opens [] := ⟨rfl, rfl, rfl⟩
  refine leads_readToken_outer hopen h hls fun {s'} ls' ends hs' hls' htaken hqueue hkinds => ?_
  unfold atToken
  simp only [leads_bind, leads_reading, leads_get]
  refine (Read.leads_need hs'.shows 4).mono fun _ c hc => ?_
  have hahead : c.ahead 0 = endChar := hc.1.headD
  simp only [hahead, beq_self_eq_true, if_true]
  refine (leads_readStreamEnd (hs'.moved hc.2) hls').mono fun _ s'' hs'' => ⟨hs''.1, ?_⟩
  have hends : Pushes s { s' with cursor := c } (ends.map (·.kind)) := ⟨htaken, ends, hqueue, rfl⟩
  have hall := hends.trans hs''.2
  rwa [← List.append_assoc, hkinds] at hall

/-- The end of the stream is read again. -/
theorem Ended.leads_readToken (h : Ended N s) :
    Leads b readToken s fun _ s' => Ended N s' ∧ Pushes s s' [.streamEnd] := by
  obtain ⟨m, hm⟩ := h.stands
  have hnears : Nears N s ([] ++ [-1]) 0 [] m false := .line (k := 0) hm
  exact leads_readToken_end hnears nofun

/-- A line of three dashes starts a document. -/
theorem leads_readToken_document {tail : List Char}
    (h : Nears N s (ls ++ [-1]) 0 ('-' :: '-' :: '-' :: '\n' :: tail) m allowed) (hcol : m.column = 0)
    (hls : ∀ l ∈ ls, -1 < l) :
    Leads b readToken s fun _ s' =>
      (∃ m', Stands N s' [-1] 0 false ('\n' :: tail) m') ∧
        Pushes s s' (List.replicate ls.length TokenKind.blockEnd ++ [TokenKind.documentStart]) := by
  have hopen : Opens ('-' :: '-' :: '-' :: '\n' :: tail) := ⟨rfl, rfl, rfl⟩
  have hdash : isBreak '-' = false := by decide
  have hend : ('-' == endChar) = false := by decide
  have hdirective : ('-' == '%') = false := by decide
  refine leads_readToken_outer hopen h hls fun {s'} ls' ends hs' hls' htaken hqueue hkinds => ?_
  unfold atToken
  simp only [leads_bind, leads_reading, leads_get]
  refine (Read.leads_need hs'.shows 4).mono fun _ c hc => ?_
  have hahead : c.ahead 0 = '-' := hc.1.headD
  have hdocument : c.atDocumentMark = true := by
    rw [hc.1.atDocumentMark, hcol]
    rfl
  simp only [hahead, hend, hdirective, Bool.and_false, Bool.false_eq_true, if_false, hdocument, if_true,
    beq_self_eq_true]
  -- all block collections end with the document
  unfold readDocumentMark leaveDocument readMark
  simp only [leads_bind, leads_mark, leads_allowKey, leads_reading, leads_push]
  refine leads_leaveBlocks hs'.comments hs'.level_eq hs'.stack_eq hls' (Int.le_refl _)
    fun ends' hends' => ?_
  refine leads_dropKey hs'.optional fun watched => ?_
  refine ⟨⟨((m.past '-').past '-').past '-', ?_⟩, htaken,
    ends ++ (ends' ++ [⟨.documentStart, c.mark, c.skip.skip.skip.mark⟩]), ?_, ?_⟩
  · exact ⟨hs'.started, hs'.comments, rfl, hs'.level_eq, (length_dropped _).trans hs'.keys_length,
      optional_dropped hs'.optional, rfl, (((hc.1.skip hdash).skip hdash).skip hdash).mono (Nat.zero_le 1)⟩
  · show (s'.queue ++ ends') ++ [_] = s.queue ++ (ends ++ (ends' ++ [_]))
    rw [hqueue, List.append_assoc, List.append_assoc]
  · rw [List.map_append, List.map_append, hends', ← List.append_assoc, hkinds]
    rfl

/-- The start of the stream is read first. -/
theorem leads_readToken_start (hs : s.started = false) (hcomments : s.comments = [])
    (hstack : s.indent :: s.indents = [-1]) (hlevel : s.flowLevel = 0) (hat : At N s.cursor rest m 0) :
    Leads b readToken s fun _ s' =>
      Stands N s' [-1] 0 true rest m ∧ Pushes s s' [.streamStart] := by
  rw [readToken_eq]
  simp only [leads_bind, leads_reading, leads_get]
  refine (Read.leads_need hat 1).mono fun _ c hc => ?_
  simp only [hs, Bool.not_false, if_true]
  unfold readStreamStart
  simp only [leads_bind, leads_modify, leads_mark, leads_push]
  have hoptional : ∀ k ∈ [({} : PendingKey)], k.required = false := by simp
  refine ⟨⟨rfl, hcomments, hstack, hlevel, rfl, hoptional, rfl, hc.2⟩, rfl,
    [⟨.streamStart, c.mark, c.mark⟩], rfl, rfl⟩

end Documents

end TreeLang.Yaml.TokenStream
