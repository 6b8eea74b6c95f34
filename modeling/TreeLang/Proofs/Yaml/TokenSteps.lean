import TreeLang.Proofs.Yaml.TokenRules

/-!
# Steps through a written text

One theorem for each token that a written text has: where the stream stands in front of the token,
the token is read, and the stream stands behind it.
-/

set_option autoImplicit false

namespace TreeLang.Yaml.TokenStream

open Cursor (At)
open Style (spaces)

section Steps

variable {b : Prop} {N : Nat} {s : TokenStream} {level : Nat} {allowed : Bool} {m : Mark}
  {ch : Char} {tail rest cs : List Char} {i : Int} {is ls : List Int} {kind : TokenKind}

theorem Pushes.of_eq {s₁ s' : TokenStream} {ks : List TokenKind} (htaken : s₁.taken = s.taken)
    (hqueue : s₁.queue = s.queue) (h : Pushes s₁ s' ks) : Pushes s s' ks := by
  obtain ⟨ht, ts, hq, hkinds⟩ := h
  exact ⟨ht.trans htaken, ts, hqueue ▸ hq, hkinds⟩

/-- A token that is no dash is read by its reader. -/
theorem leads_readToken_by {Q : TokenStream → Prop} (hopen : Opens (ch :: tail))
    (h : Nears N s (i :: is) level (ch :: tail) m allowed)
    (hi : level = 0 → i ≤ (m.column : Int))
    (hmarker : 0 < m.column ∨ ch ≠ '%' ∧ Style.startsLikeMarker (ch :: tail) = false)
    (hdash : (ch == '-' && isGap (tail.headD endChar)) = false)
    (hread : ∀ {s₁ : TokenStream}, Stands N s₁ (i :: is) level allowed (ch :: tail) m →
      At N s₁.cursor (ch :: tail) m 1 → s₁.taken = s.taken → s₁.queue = s.queue →
      s₁.keys = s.keys →
      Leads b (readerOf (decide (0 < level)) ch (tail.headD endChar)) s₁ fun _ s' =>
        ∃ rest m', At N s'.cursor rest m' 0 ∧ Uncommented rest ∧
          ∀ c, At N c rest m' 0 → Q { s' with cursor := c }) :
    Leads b readToken s fun _ s' => Q s' := by
  have hnears : Nears N s ([] ++ i :: is) level (ch :: tail) m allowed := h
  refine leads_readToken hopen hnears (fun _ => rfl) (by nofun) hi
    fun {s₁} ends hs₁ hqueue hkinds htaken hkeys => ?_
  -- no block collection ends in front of this token
  obtain rfl : ends = [] := List.map_eq_nil_iff.1 hkinds
  rw [List.append_nil] at hqueue
  refine leads_atToken hs₁ hmarker fun c hc => ?_
  refine leads_readTokenAt (N := N) hdash ?_
  have hdone := hread (hs₁.moved (hc.mono (Nat.zero_le 4))) (hc.mono (by omega)) htaken hqueue hkeys
  rwa [← hs₁.level_eq] at hdone

/-- A character that starts a token whatever follows it, and no marker, directive or entry. -/
structure Sign (ch : Char) : Prop where
  isBreak : isBreak ch = false
  opens : ∀ tail, Opens (ch :: tail)
  marker : ∀ tail, ch ≠ '%' ∧ Style.startsLikeMarker (ch :: tail) = false
  dash : ∀ d, (ch == '-' && isGap d) = false

theorem sign_of_mem (h : ch ∈ ['[', ']', '\x7b', '\x7d', ',', ':', '\'', '"', '|']) : Sign ch := by
  simp only [List.mem_cons, List.not_mem_nil, or_false] at h
  rcases h with rfl | rfl | rfl | rfl | rfl | rfl | rfl | rfl | rfl <;>
    exact ⟨rfl, fun _ => ⟨rfl, rfl, rfl⟩, fun _ => ⟨by decide, rfl⟩, fun _ => rfl⟩

/-- The bracket that starts a flow collection. -/
theorem leads_readToken_flowStart
    (hch : ch = '[' ∧ kind = .flowSequenceStart ∨ ch = '\x7b' ∧ kind = .flowMappingStart)
    (h : Nears N s (i :: is) level (ch :: tail) m allowed)
    (hplace : level = 0 → i < (m.column : Int)) (hdepth : level < maxDepth)
    (hno : Uncommented tail) :
    Leads b readToken s fun _ s' =>
      (∃ m', m'.column = m.column + 1 ∧ Stands N s' (i :: is) (level + 1) true tail m') ∧
        Pushes s s' [kind] := by
  have hsign : Sign ch := sign_of_mem (by rcases hch with ⟨rfl, -⟩ | ⟨rfl, -⟩ <;> simp)
  have hreader : readerOf (decide (0 < level)) ch (tail.headD endChar) = readFlowStart kind := by
    rcases hch with ⟨rfl, rfl⟩ | ⟨rfl, rfl⟩ <;> rfl
  refine leads_readToken_by (hsign.opens tail) h (fun hl => Int.le_of_lt (hplace hl))
    (Or.inr (hsign.marker tail)) (hsign.dash _) fun {s₁} hs₁ hat htaken hqueue _ => ?_
  rw [hreader]
  refine (leads_readFlowStart hsign.isBreak hs₁ hat (fun hl => by have := hplace hl; omega) hdepth).mono
    fun _ s' hs' => ?_
  refine ⟨tail, _, hs'.1.shows, hno, fun c hc => ⟨⟨_, ?_, hs'.1.moved hc⟩, ?_⟩⟩
  · rw [Mark.column_past hsign.isBreak]
  · exact hs'.2.of_eq htaken hqueue

/-- The bracket that ends a flow collection. -/
theorem leads_readToken_flowEnd
    (hch : ch = ']' ∧ kind = .flowSequenceEnd ∨ ch = '\x7d' ∧ kind = .flowMappingEnd)
    (h : Nears N s (i :: is) (level + 1) (ch :: tail) m allowed) (hno : Uncommented tail) :
    Leads b readToken s fun _ s' =>
      (∃ m', m'.column = m.column + 1 ∧ Stands N s' (i :: is) level false tail m') ∧
        Pushes s s' [kind] := by
  have hsign : Sign ch := sign_of_mem (by rcases hch with ⟨rfl, -⟩ | ⟨rfl, -⟩ <;> simp)
  have hreader : readerOf (decide (0 < level + 1)) ch (tail.headD endChar) = readFlowEnd kind := by
    rcases hch with ⟨rfl, rfl⟩ | ⟨rfl, rfl⟩ <;> rfl
  refine leads_readToken_by (hsign.opens tail) h (fun hl => absurd hl (Nat.succ_ne_zero _))
    (Or.inr (hsign.marker tail)) (hsign.dash _) fun {s₁} hs₁ hat htaken hqueue _ => ?_
  rw [hreader]
  refine (leads_readFlowEnd hsign.isBreak hs₁ hat).mono fun _ s' hs' => ?_
  refine ⟨tail, _, hs'.1.shows, hno, fun c hc => ⟨⟨_, ?_, hs'.1.moved hc⟩, ?_⟩⟩
  · rw [Mark.column_past hsign.isBreak]
  · exact hs'.2.of_eq htaken hqueue

/-- The comma between the entries of a flow collection. -/
theorem leads_readToken_comma (h : Nears N s (i :: is) (level + 1) (',' :: tail) m allowed)
    (hno : Uncommented tail) :
    Leads b readToken s fun _ s' =>
      (∃ m', m'.column = m.column + 1 ∧ Stands N s' (i :: is) (level + 1) true tail m') ∧
        Pushes s s' [.flowEntry] := by
  have hsign : Sign ',' := sign_of_mem (by simp)
  refine leads_readToken_by (hsign.opens tail) h (fun hl => absurd hl (Nat.succ_ne_zero _))
    (Or.inr (hsign.marker tail)) rfl fun {s₁} hs₁ hat htaken hqueue _ => ?_
  refine (leads_readFlowEntry hsign.isBreak hs₁ hat).mono fun _ s' hs' => ?_
  refine ⟨tail, _, hs'.1.shows, hno, fun c hc => ⟨⟨_, ?_, hs'.1.moved hc⟩, ?_⟩⟩
  · rw [Mark.column_past hsign.isBreak]
  · exact hs'.2.of_eq htaken hqueue

/-! ## Dashes -/

/-- In front of a dash the block collections right of it end. -/
theorem leads_readToken_dash {Q : TokenStream → Prop}
    (h : Nears N s (ls ++ i :: is) 0 ('-' :: ' ' :: tail) m true)
    (hls : ∀ l ∈ ls, (m.column : Int) < l) (hi : i ≤ (m.column : Int))
    (hread : ∀ {s₁ : TokenStream}, Stands N s₁ (i :: is) 0 true ('-' :: ' ' :: tail) m →
      At N s₁.cursor ('-' :: ' ' :: tail) m 1 →
      Pushes s s₁ (List.replicate ls.length .blockEnd) →
      Leads b readBlockEntry s₁ fun _ s' => Q s') :
    Leads b readToken s fun _ s' => Q s' := by
  refine leads_readToken ⟨rfl, rfl, rfl⟩ h (fun hne => absurd rfl hne) hls (fun _ => hi)
    fun {s₁} ends hs₁ hqueue hkinds htaken _ => ?_
  refine leads_atToken hs₁ (Or.inr ⟨by decide, rfl⟩) fun c hc => ?_
  rw [readTokenAt_eq]
  simp only [leads_bind, leads_get]
  exact hread (hs₁.moved (hc.mono (Nat.zero_le 4))) (hc.mono (by omega)) ⟨htaken, ends, hqueue, hkinds⟩

/-- The dash that starts a block sequence. -/
theorem leads_readToken_firstDash (h : Nears N s (i :: is) 0 ('-' :: ' ' :: tail) m true)
    (hi : i < (m.column : Int)) (hdepth : b ∨ (i :: is).length ≤ maxDepth) :
    Leads b readToken s fun _ s' => (i :: is).length ≤ maxDepth ∧
      (∃ m', m'.column = m.column + 1 ∧ Stands N s' ((m.column : Int) :: i :: is) 0 true (' ' :: tail) m') ∧
        Pushes s s' [.blockSequenceStart, .blockEntry] := by
  have hnears : Nears N s ([] ++ i :: is) 0 ('-' :: ' ' :: tail) m true := h
  refine leads_readToken_dash hnears (by nofun) (Int.le_of_lt hi) fun {s₁} hs₁ hat hpush => ?_
  refine (leads_readBlockEntry_first hs₁ hat hi hdepth).mono fun _ s' hs' => ?_
  exact ⟨hs'.1, ⟨_, rfl, hs'.2.1⟩, hpush.trans hs'.2.2⟩

/-- Another dash of a block sequence. -/
theorem leads_readToken_nextDash
    (h : Nears N s (ls ++ (m.column : Int) :: is) 0 ('-' :: ' ' :: tail) m true)
    (hls : ∀ l ∈ ls, (m.column : Int) < l) :
    Leads b readToken s fun _ s' =>
      (∃ m', m'.column = m.column + 1 ∧ Stands N s' ((m.column : Int) :: is) 0 true (' ' :: tail) m') ∧
        Pushes s s' (List.replicate ls.length TokenKind.blockEnd ++ [TokenKind.blockEntry]) := by
  refine leads_readToken_dash h hls (Int.le_refl _) fun {s₁} hs₁ hat hpush => ?_
  refine (leads_readBlockEntry_next hs₁ hat rfl).mono fun _ s' hs' => ?_
  exact ⟨⟨_, rfl, hs'.1⟩, hpush.trans hs'.2⟩

/-! ## Quoted scalars and literal blocks -/

theorem readerOf_quote {quote : Char} (hquote : quote = '\'' ∨ quote = '"') (inFlow : Bool) (d : Char) :
    readerOf inFlow quote d = readKeyPart (Scalar.readQuoted quote) := by
  rcases hquote with rfl | rfl <;> rfl

/-- A scalar between quotes. -/
theorem leads_readToken_quoted {quote : Char} {W : List Char} (hquote : quote = '\'' ∨ quote = '"')
    (hclose : quote = '\'' → rest.headD endChar ≠ '\'') (hcontent : Scalar.Content quote W cs)
    (h : Nears N s (i :: is) level (quote :: (W ++ quote :: rest)) m allowed)
    (hplace : level = 0 → i < (m.column : Int)) (hno : Uncommented rest) :
    Leads b readToken s fun _ s' =>
      (∃ m', 0 < m'.column ∧ Stands N s' (i :: is) level false rest m') ∧
        Pushes s s' [.scalar (Utf8.encode cs) false] := by
  have hsign : Sign quote := sign_of_mem (by rcases hquote with rfl | rfl <;> simp)
  refine leads_readToken_by (hsign.opens _) h (fun hl => Int.le_of_lt (hplace hl))
    (Or.inr (hsign.marker _)) (hsign.dash _) fun {s₁} hs₁ hat htaken hqueue _ => ?_
  rw [readerOf_quote hquote]
  refine (leads_readQuoted hquote hclose hcontent hs₁ hat
    (fun hl => by have := hplace hl; omega)).mono fun _ s' hs' => ?_
  obtain ⟨⟨m', hcol', hs'⟩, hpush⟩ := hs'
  exact ⟨rest, m', hs'.shows, hno, fun c hc => ⟨⟨m', hcol', hs'.moved hc⟩, hpush.of_eq htaken hqueue⟩⟩

/-- A literal block, with the line break after it. -/
theorem leads_readToken_literal {indent n : Nat} (hi : 0 ≤ i) (hindent : (indent : Int) = i + 2)
    (hn : n < indent) (hne : cs ≠ []) (hopen : Opens rest) (htab : cs.head? = some '\t' → b)
    (h : Nears N s (i :: is) 0
      (Style.literalForm indent cs ++ (Scalar.closing cs ++ (spaces n ++ rest))) m allowed)
    (hplace : i < (m.column : Int)) (hno : Uncommented rest) :
    Leads b readToken s fun _ s' =>
      cs.head? ≠ some '\t' ∧ (∃ m', m'.column = n ∧ Stands N s' (i :: is) 0 true rest m') ∧
        Pushes s s' [.scalar (Utf8.encode (Scalar.readBack cs)) false] := by
  obtain ⟨form, hform⟩ : ∃ form, Style.literalForm indent cs = '|' :: form := ⟨_, rfl⟩
  rw [hform, List.cons_append] at h
  have hsign : Sign '|' := sign_of_mem (by simp)
  refine leads_readToken_by (hsign.opens _) h (fun _ => Int.le_of_lt hplace)
    (Or.inr (hsign.marker _)) rfl fun {s₁} hs₁ hat htaken hqueue _ => ?_
  have hreader : ∀ d, readerOf (decide (0 < 0)) '|' d = readBlockScalar true := fun _ => rfl
  have hs₁' := hs₁
  have hat' := hat
  rw [← List.cons_append, ← hform] at hs₁' hat'
  rw [hreader]
  refine (leads_readBlockScalar hi hindent hn hne ⟨hopen.blank, hopen.isBreak⟩ htab hs₁' hat').mono
    fun _ s' hs' => ?_
  obtain ⟨hfirst, ⟨m', hcol', hs'⟩, hpush⟩ := hs'
  exact ⟨rest, m', hs'.shows, hno, fun c hc =>
    ⟨hfirst, ⟨m', hcol', hs'.moved hc⟩, hpush.of_eq htaken hqueue⟩⟩

/-! ## Plain scalars -/

theorem indicators_eq : indicators = ['-', '?', ':', ',', '[', ']', '\x7b', '\x7d', '#', '&', '*', '!',
    '|', '>', '\'', '"', '%', '@', '\x60'] := by
  rfl

theorem inFlow_eq_false {inFlow : Bool} {c : Char} (hflow : inFlow = true → c ≠ '?' ∧ c ≠ ':')
    (hc : c = '?' ∨ c = ':') : inFlow = false := by
  cases inFlow with
  | false => rfl
  | true => exact absurd hc (not_or.2 (hflow rfl))

/-- A character starts a plain scalar if it is no leading indicator, or is one in front of a
word. -/
theorem startsPlain_of {inFlow : Bool} {c d : Char} (hlead : c ∉ Style.leading) (hgap : isGap c = false)
    (hflow : inFlow = true → c ≠ '?' ∧ c ≠ ':')
    (hnext : c = '-' ∨ c = '?' ∨ c = ':' → isGap d = false) : startsPlain inFlow c d = true := by
  by_cases hc : c = '-' ∨ c = '?' ∨ c = ':'
  · have hd := hnext hc
    have hblank := Scalar.isSpaceOrTab_of_isGap hd
    rcases hc with rfl | hc
    · simp [startsPlain, hblank]
    · have hno := inFlow_eq_false hflow hc
      rcases hc with rfl | rfl
      · simp [startsPlain, hd, hno]
      · simp [startsPlain, hd, hno]
  · have hnot : indicators.contains c = false := by
      rw [Scalar.leading_eq] at hlead
      simp only [List.mem_cons, List.not_mem_nil, or_false, not_or] at hlead hc
      rw [List.contains_eq_mem, indicators_eq]
      simp [hlead, hc]
    unfold startsPlain
    rw [hgap, hnot]
    rfl

/-- A character that may start a plain scalar has it read as one. -/
theorem readerOf_plain {inFlow : Bool} {c d : Char} (hlead : c ∉ Style.leading) (hgap : isGap c = false)
    (hflow : inFlow = true → c ≠ '?' ∧ c ≠ ':')
    (hnext : c = '-' ∨ c = '?' ∨ c = ':' → isGap d = false) : readerOf inFlow c d = readPlain := by
  -- a question mark or colon is an indicator only in a flow collection or in front of a gap
  have hsign : ∀ e, e = '?' ∨ e = ':' → (c == e && (inFlow || isGap d)) = false := by
    intro e he
    by_cases hc : c = e
    · subst hc
      rw [inFlow_eq_false hflow he, hnext (Or.inr he), Bool.or_false, Bool.and_false]
    · rw [beq_eq_false_iff_ne.2 hc, Bool.false_and]
  have hquestion := hsign '?' (Or.inl rfl)
  have hcolon := hsign ':' (Or.inr rfl)
  have hstart : startsPlain inFlow c d = true := startsPlain_of hlead hgap hflow hnext
  rw [Scalar.leading_eq] at hlead
  simp only [List.mem_cons, List.not_mem_nil, or_false, not_or] at hlead
  obtain ⟨-, h₁, h₂, h₃, h₄, h₅, h₆, h₇, h₈, h₉, h₁₀, h₁₁, h₁₂, -⟩ := hlead
  unfold readerOf
  simp only [beq_eq_false_iff_ne.2 h₁, beq_eq_false_iff_ne.2 h₂, beq_eq_false_iff_ne.2 h₃,
    beq_eq_false_iff_ne.2 h₄, beq_eq_false_iff_ne.2 h₅, beq_eq_false_iff_ne.2 h₆,
    beq_eq_false_iff_ne.2 h₇, beq_eq_false_iff_ne.2 h₈, beq_eq_false_iff_ne.2 h₉,
    beq_eq_false_iff_ne.2 h₁₀, beq_eq_false_iff_ne.2 h₁₁, beq_eq_false_iff_ne.2 h₁₂, hquestion, hcolon,
    hstart, Bool.false_and, Bool.or_false, Bool.false_eq_true, if_false, if_true]

/-- A text that may be plain starts a token. -/
theorem opens_plain {inFlow : Bool} (hne : cs ≠ []) (hrule : Scalar.PlainRule inFlow cs)
    (rest : List Char) : Opens (cs ++ rest) := by
  obtain ⟨ch, post, rfl⟩ := List.exists_cons_of_ne_nil hne
  obtain ⟨hlead, -, -⟩ := hrule.first rfl rest
  have hgap : isGap ch = false :=
    (hrule.isGap_eq List.mem_cons_self).trans (beq_eq_false_iff_ne.2 fun heq => hrule.head (heq ▸ rfl))
  refine ⟨Scalar.isSpaceOrTab_of_isGap hgap, Scalar.isBreak_of_isGap hgap, beq_eq_false_iff_ne.2 ?_⟩
  rintro rfl
  exact hlead (by simp [Scalar.leading_eq])

/-- A text that may be plain is read as a plain scalar, in its way. -/
theorem leads_readToken_plain {Q : TokenStream → Prop} (hne : cs ≠ [])
    (hrule : Scalar.PlainRule (decide (0 < level)) cs)
    (h : Nears N s (i :: is) level (cs ++ rest) m allowed)
    (hplace : level = 0 → i < (m.column : Int))
    (hmarker : 0 < m.column ∨ Style.startsLikeMarker (cs ++ rest) = false)
    (hread : ∀ {s₁ : TokenStream}, Stands N s₁ (i :: is) level allowed (cs ++ rest) m →
      s₁.taken = s.taken → s₁.queue = s.queue →
      Leads b (Scalar.readPlain (decide (0 < level)) (i + 1)) s₁.cursor fun a c =>
        ∃ rest' m', At N c rest' m' 0 ∧ Uncommented rest' ∧
          ∀ c' k ks watched, At N c' rest' m' 0 → (k :: ks).length = level + 1 →
            (∀ k' ∈ k :: ks, k'.required = false) → (allowed = true → k = keyHere s₁) →
            Q { s₁ with cursor := c', keys := k :: ks, watched := watched, keyAllowed := a.2,
                        queue := s₁.queue ++ [a.1] }) :
    Leads b readToken s fun _ s' => Q s' := by
  obtain ⟨ch, post, rfl⟩ := List.exists_cons_of_ne_nil hne
  have hopen : Opens (ch :: (post ++ rest)) := opens_plain hne hrule rest
  obtain ⟨hlead, hflow, hnext⟩ := hrule.first rfl rest
  have hgap : isGap ch = false :=
    (hrule.isGap_eq List.mem_cons_self).trans (beq_eq_false_iff_ne.2 fun heq => hrule.head (heq ▸ rfl))
  have hpercent : ch ≠ '%' := by
    rintro rfl
    exact hlead (by simp [Scalar.leading_eq])
  have hdash : (ch == '-' && isGap ((post ++ rest).headD endChar)) = false := by
    by_cases hch : ch = '-'
    · rw [hnext (Or.inl hch), Bool.and_false]
    · rw [beq_eq_false_iff_ne.2 hch, Bool.false_and]
  refine leads_readToken_by hopen h (fun hl => Int.le_of_lt (hplace hl))
    (hmarker.imp_right fun hno => ⟨hpercent, hno⟩) hdash fun {s₁} hs₁ hat htaken hqueue _ => ?_
  rw [readerOf_plain hlead hgap hflow hnext]
  refine leads_readPlain hs₁ (fun hl => by have := hplace hl; omega) ?_
  refine (hread hs₁ htaken hqueue).mono fun a c hc => ?_
  obtain ⟨rest', m', hc, hno, hdone⟩ := hc
  intro k ks watched hlength hoptional hhere
  exact ⟨rest', m', hc, hno, fun c' hc' =>
    hdone c' k ks watched hc' (hlength.symm.trans hs₁.keys_length) hoptional hhere⟩

/-- A plain scalar that an indicator follows. Where a key may start it is kept as a pending key. -/
theorem leads_readToken_word (hne : cs ≠ []) (hrule : Scalar.PlainRule (decide (0 < level)) cs)
    (h : Nears N s (i :: is) level (cs ++ rest) m allowed)
    (hplace : level = 0 → i < (m.column : Int))
    (hmarker : 0 < m.column ∨ Style.startsLikeMarker (cs ++ rest) = false)
    (hstop : Scalar.stopsPlain (decide (0 < level)) rest = true)
    (hhead : isGap (rest.headD endChar) = false) (hno : Uncommented rest) :
    Leads b readToken s fun _ s' =>
      (∃ m', m'.column = m.column + cs.length ∧ Stands N s' (i :: is) level false rest m') ∧
        s'.taken = s.taken ∧ ∃ t : Token, s'.queue = s.queue ++ [t] ∧
          t.kind = .scalar (Utf8.encode cs) true ∧
          (allowed = true → cs.length ≤ keyReach →
            ∃ k, k.mark.column = m.column ∧ Pending s' s.queue t k) := by
  refine leads_readToken_plain hne hrule h hplace hmarker fun {s₁} hs₁ htaken hqueue => ?_
  have hcol' : decide (0 < level) = true ∨ i + 1 ≤ (m.column : Int) := by
    by_cases hl : level = 0
    · exact Or.inr (by have := hplace hl; omega)
    · exact Or.inl (decide_eq_true (Nat.pos_of_ne_zero hl))
  have hmark := Mark.over_line hrule.isBreak m
  refine (Scalar.leads_readPlain_indicator (hrule.plainText hne rest) hstop hhead hs₁.shows
    hmarker hcol').mono fun a c hc => ?_
  obtain ⟨hkind, hbroken, hc⟩ := hc
  refine ⟨rest, _, hc.mono (Nat.zero_le 1), hno, fun c' k ks watched hc' hlength hoptional hhere => ?_⟩
  refine ⟨⟨_, ?_, hs₁.started, hs₁.comments, hs₁.stack_eq, hs₁.level_eq, hlength, hoptional, hbroken, hc'⟩,
    htaken, a.1, ?_, hkind, fun hallowed hreach => ⟨k, ?_, ?_⟩⟩
  · rw [hmark]
  · rw [← hqueue]
  · rw [hhere hallowed]
    show s₁.cursor.mark.column = m.column
    rw [hs₁.shows.mark]
  · rw [hhere hallowed]
    refine ⟨?_, ?_, rfl, rfl, ?_⟩
    · rw [← hqueue]
    · show s₁.taken + s₁.queue.length = s₁.taken + s.queue.length
      rw [hqueue]
    -- it has not lapsed: the scalar is on one line and not too long
    · show (decide (s₁.cursor.mark.line < c'.mark.line) ||
        decide (s₁.cursor.mark.index + keyReach < c'.mark.index)) = false
      rw [hs₁.shows.mark, hc'.mark, hmark, decide_eq_false (Nat.lt_irrefl _),
        decide_eq_false (by show ¬ m.index + keyReach < m.index + cs.length; omega)]
      rfl

/-- A plain scalar behind which a new line has been started. -/
theorem leads_readToken_ended {n : Nat} (hne : cs ≠ []) (hrule : Scalar.PlainRule false cs)
    (h : Nears N s (i :: is) 0 (cs ++ tail) m allowed) (hplace : i < (m.column : Int))
    (hmarker : 0 < m.column ∨ Style.startsLikeMarker (cs ++ tail) = false) (hno : Uncommented rest)
    (hread : ∀ {c : Cursor}, At N c (cs ++ tail) m 0 →
      Leads b (Scalar.readPlain false (i + 1)) c fun a c' => a.1.kind = .scalar (Utf8.encode cs) true ∧
        a.2 = true ∧ ∃ m', m'.column = n ∧ At N c' rest m' 1) :
    Leads b readToken s fun _ s' =>
      (∃ m', m'.column = n ∧ Stands N s' (i :: is) 0 true rest m') ∧
        Pushes s s' [.scalar (Utf8.encode cs) true] := by
  have hrule' : Scalar.PlainRule (decide (0 < 0)) cs := hrule
  refine leads_readToken_plain hne hrule' h (fun _ => hplace) hmarker fun {s₁} hs₁ htaken hqueue => ?_
  refine (hread hs₁.shows).mono fun a c hc => ?_
  obtain ⟨hkind, hbroken, m', hcol', hc⟩ := hc
  -- whatever key was kept on the way, a new one may start on the new line
  refine ⟨rest, m', hc.mono (Nat.zero_le 1), hno, fun c' k ks watched hc' hlength hoptional _ => ?_⟩
  refine ⟨⟨m', hcol', hs₁.started, hs₁.comments, hs₁.stack_eq, hs₁.level_eq, hlength, hoptional, hbroken,
    hc'⟩, htaken, [a.1], ?_, ?_⟩
  · rw [← hqueue]
  · rw [List.map_singleton, hkind]

/-- A plain scalar that ends with its line. -/
theorem leads_readToken_line {n : Nat} (hne : cs ≠ []) (hrule : Scalar.PlainRule false cs)
    (h : Nears N s (i :: is) 0 (cs ++ '\n' :: (spaces n ++ rest)) m allowed)
    (hplace : i < (m.column : Int)) (hpos : 0 < m.column) (hn : (n : Int) ≤ i) (hopen : Opens rest)
    (hno : Uncommented rest) :
    Leads b readToken s fun _ s' =>
      (∃ m', m'.column = n ∧ Stands N s' (i :: is) 0 true rest m') ∧
        Pushes s s' [.scalar (Utf8.encode cs) true] := by
  refine leads_readToken_ended hne hrule h hplace (Or.inl hpos) hno fun hat => ?_
  exact Scalar.leads_readPlain_line (hrule.plainText hne _) ⟨hopen.blank, hopen.isBreak⟩ hat
    (by omega) (by omega) (by omega)

/-- A plain scalar that is a whole document. -/
theorem leads_readToken_root (hne : cs ≠ []) (hrule : Scalar.PlainRule false cs)
    (h : Nears N s [-1] 0 (cs ++ '\n' :: rest) m allowed)
    (hmarker : Style.startsLikeMarker (cs ++ '\n' :: rest) = false)
    (hrest : rest = [] ∨ Style.startsLikeMarker rest = true ∧ isGap (rest.getD 3 endChar) = true)
    (hno : Uncommented rest) :
    Leads b readToken s fun _ s' =>
      (∃ m', m'.column = 0 ∧ Stands N s' [-1] 0 true rest m') ∧
        Pushes s s' [.scalar (Utf8.encode cs) true] := by
  refine leads_readToken_ended hne hrule h (by omega) (Or.inr hmarker) hno fun hat => ?_
  exact Scalar.leads_readPlain_root (hrule.plainText hne _) hrest hat hmarker

/-! ## Colons -/

/-- The pending key stands where the stream has moved to the colon behind it. -/
theorem Pending.of_eq {s₁ : TokenStream} {q : List Token} {t : Token} {k : PendingKey}
    (h : Pending s q t k) (hmark : s₁.cursor.mark = s.cursor.mark) (htaken : s₁.taken = s.taken)
    (hqueue : s₁.queue = s.queue) (hkeys : s₁.keys = s.keys) : Pending s₁ q t k :=
  ⟨hqueue.trans h.queue, htaken ▸ h.number, hkeys ▸ h.head, h.possible, hmark ▸ h.lapsed⟩

/-- The colon behind a key in a flow collection. -/
theorem leads_readToken_flowColon {q : List Token} {t : Token} {k : PendingKey} (hp : Pending s q t k)
    (h : Stands N s (i :: is) (level + 1) allowed (':' :: tail) m) (hno : Uncommented tail) :
    Leads b readToken s fun _ s' =>
      (∃ m', m'.column = m.column + 1 ∧ Stands N s' (i :: is) (level + 1) false tail m') ∧
        s'.taken = s.taken ∧
          ∃ u v : Token, s'.queue = q ++ [u] ++ t :: [v] ∧ u.kind = .key ∧ v.kind = .value := by
  have hnears : Nears N s (i :: is) (level + 1) (':' :: tail) m allowed := .line (k := 0) h
  have hsign : Sign ':' := sign_of_mem (by simp)
  refine leads_readToken_by (hsign.opens tail) hnears (fun hl => absurd hl (Nat.succ_ne_zero _))
    (Or.inr (hsign.marker tail)) rfl fun {s₁} hs₁ hat htaken hqueue hkeys => ?_
  have hp₁ := hp.of_eq (hs₁.shows.mark.trans h.shows.mark.symm) htaken hqueue hkeys
  refine (leads_readValue_flow hp₁ hs₁ hat).mono fun _ s' hs' => ?_
  refine ⟨tail, _, hs'.1.shows, hno, fun c hc => ⟨⟨_, Mark.column_past rfl m, hs'.1.moved hc⟩, ?_⟩⟩
  exact ⟨hs'.2.1.trans htaken, hs'.2.2⟩

/-- The colon behind the key of a block mapping, which starts the mapping. -/
theorem leads_readToken_blockColon {q : List Token} {t : Token} {k : PendingKey} {column : Nat}
    (hp : Pending s q t k) (hcolumn : k.mark.column = column)
    (h : Stands N s (i :: is) 0 allowed (':' :: tail) m) (hgap : isGap (tail.headD endChar) = true)
    (hi : i < (column : Int)) (hle : i ≤ (m.column : Int)) (hdepth : b ∨ (i :: is).length ≤ maxDepth)
    (hno : Uncommented tail) :
    Leads b readToken s fun _ s' => (i :: is).length ≤ maxDepth ∧
      (∃ m', m'.column = m.column + 1 ∧ Stands N s' ((column : Int) :: i :: is) 0 false tail m') ∧
        s'.taken = s.taken ∧ ∃ u v w : Token, s'.queue = q ++ [u, v] ++ t :: [w] ∧
          u.kind = .blockMappingStart ∧ v.kind = .key ∧ w.kind = .value := by
  have hnears : Nears N s (i :: is) 0 (':' :: tail) m allowed := .line (k := 0) h
  have hreader : readerOf (decide (0 < 0)) ':' (tail.headD endChar) = readValue := by
    unfold readerOf
    rw [hgap]
    rfl
  have hsign : Sign ':' := sign_of_mem (by simp)
  refine leads_readToken_by (hsign.opens tail) hnears (fun _ => hle) (Or.inr (hsign.marker tail)) rfl
    fun {s₁} hs₁ hat htaken hqueue hkeys => ?_
  have hp₁ := hp.of_eq (hs₁.shows.mark.trans h.shows.mark.symm) htaken hqueue hkeys
  rw [hreader]
  refine (leads_readValue_block hp₁ hcolumn hs₁ hat hi hdepth).mono fun _ s' hs' => ?_
  obtain ⟨hfits, hs', htaken', hqueue'⟩ := hs'
  refine ⟨tail, _, hs'.shows, hno, fun c hc => ⟨hfits, ⟨_, Mark.column_past rfl m, hs'.moved hc⟩, ?_⟩⟩
  exact ⟨htaken'.trans htaken, hqueue'⟩

end Steps

end TreeLang.Yaml.TokenStream
