import TreeLang.Proofs.Yaml.PlainScalar

/-!
# Reading quoted scalars

Between quotes every character is written by a piece of its own: itself, two quotes, or an escape.
Spaces stand for themselves, and so do the line separators of Unicode with the indentation after
them. So a text that is written between single or double quotes is read back as it is.
-/

set_option autoImplicit false

namespace TreeLang.Yaml.Scalar

open Read
open Cursor (At)

/-! ## Pieces -/

/-- What may be written for a character between quotes. -/
inductive Piece (quote : Char) : List Char → Char → Prop where
  | plain {c : Char} : isGap c = false → c ≠ quote → (quote = '"' → c ≠ '\\') → Piece quote [c] c
  | quote : quote = '\'' → Piece quote ['\'', '\''] '\''
  | letter {l c : Char} : quote = '"' → isBreak l = false → escape? l = some (.char c) →
      Piece quote ['\\', l] c
  | number {l : Char} {ds : List Char} {n : Nat} : quote = '"' → isBreak l = false →
      (∀ d ∈ ds, isBreak d = false) → escape? l = some (.number ds.length) →
      hexNumber? 0 ds = some n → ¬((0xD800 ≤ n ∧ n ≤ 0xDFFF) ∨ 0x10FFFF < n) →
      Piece quote ('\\' :: l :: ds) (Char.ofNat n)

/-- What may be written for characters one after the other. -/
inductive Pieces (quote : Char) : List Char → List Char → Prop where
  | nil : Pieces quote [] []
  | cons {w ws cs : List Char} {c : Char} : Piece quote w c → Pieces quote ws cs →
      Pieces quote (w ++ ws) (c :: cs)

/-- Whether a run of pieces ends in front of a text: at a gap, or at a single quote. -/
def StopsRun (quote : Char) (rest : List Char) : Prop :=
  isGap (rest.headD endChar) = true ∨
    rest.headD endChar = quote ∧ (quote = '\'' → rest.getD 1 endChar ≠ '\'')

section

variable {b : Prop} {N : Nat} {start : Mark} {quote : Char} {c : Cursor} {m : Mark} {rest : List Char}

theorem range_map_getD (ds rest : List Char) :
    (List.range ds.length).map (fun i => (ds ++ rest).getD i endChar) = ds := by
  refine List.ext_getElem (by simp) fun i h₁ h₂ => ?_
  rw [List.getElem_map, List.getElem_range, List.getD_eq_getElem?_getD,
    List.getElem?_append_left h₂, List.getElem?_eq_getElem h₂]
  rfl

/-- An escape is read as the character it stands for. -/
theorem leads_readEscape {l ch : Char} {ds : List Char} (hp : Piece '"' ('\\' :: l :: ds) ch)
    (h : At N c ('\\' :: l :: (ds ++ rest)) m 2) :
    Leads b (readEscape start) c fun a c' => a = ch ∧ At N c' rest (m.over ('\\' :: l :: ds)) 0 := by
  have hslash : isBreak '\\' = false := by decide
  have hahead : c.ahead 1 = l := h.ahead Nat.one_lt_two
  unfold readEscape
  simp only [leads_bind, leads_peekAt, hahead]
  cases hp with
  | letter _ hl hesc =>
    rw [hesc]
    simp only [leads_bind, leads_skip, leads_pure]
    exact ⟨trivial, (h.skip hslash).skip hl⟩
  | number _ hl hds hesc hnum hvalid =>
    rw [hesc]
    simp only [leads_bind, leads_skip, leads_get]
    refine (leads_need ((h.skip hslash).skip hl) ds.length).mono fun _ c₁ hc₁ => ?_
    have hread : (List.range ds.length).map c₁.ahead = ds := by
      refine (List.map_congr_left fun i hi => ?_).trans (range_map_getD ds rest)
      exact hc₁.1.ahead (List.mem_range.1 hi)
    rw [hread, hnum]
    simp only [if_neg hvalid, leads_bind, leads_pure]
    refine (leads_skipMany (n := 0) hds hc₁.1).mono fun _ c₂ hc₂ => ⟨trivial, hc₂⟩

/-- A run goes on after an escape with the character it stands for. -/
theorem leads_readQuotedRun_escape {l ch : Char} {ds acc : List Char} {fuel : Nat}
    {Q : List Char × Bool → Cursor → Prop} (hp : Piece '"' ('\\' :: l :: ds) ch)
    (hl : isBreak l = false) (h : At N c ('\\' :: l :: (ds ++ rest)) m 2)
    (hgo : ∀ c', At N c' rest (m.over ('\\' :: l :: ds)) 2 →
      Leads b (readQuotedRun start '"' fuel (ch :: acc)) c' Q) :
    Leads b (readQuotedRun start '"' (fuel + 1) acc) c Q := by
  have hahead : c.ahead 0 = '\\' := h.headD
  have hnext : c.ahead 1 = l := h.ahead Nat.one_lt_two
  have hgap : isGap '\\' = false := by decide
  have hquote : ('\\' == '"') = false := by decide
  unfold readQuotedRun
  simp only [leads_bind, leads_peek, hahead, hgap, Bool.false_eq_true, if_false, hquote,
    beq_self_eq_true, Bool.and_self, if_true, leads_peekAt, hnext, hl]
  refine (leads_readEscape hp h).mono fun _ c₁ hc₁ => ?_
  rw [hc₁.1]
  exact (leads_need hc₁.2 2).mono fun _ c₂ hc₂ => hgo c₂ hc₂.1

/-- A run goes on after a character that stands for itself. -/
theorem leads_readQuotedRun_plain {ch : Char} {acc : List Char} {fuel : Nat}
    {Q : List Char × Bool → Cursor → Prop} (hgap : isGap ch = false) (hne : ch ≠ quote)
    (hslash : quote = '"' → ch ≠ '\\') (h : At N c (ch :: rest) m 2)
    (hgo : ∀ c', At N c' rest (m.over [ch]) 2 →
      Leads b (readQuotedRun start quote fuel (ch :: acc)) c' Q) :
    Leads b (readQuotedRun start quote (fuel + 1) acc) c Q := by
  have hahead : c.ahead 0 = ch := h.headD
  have hesc : (quote == '"' && ch == '\\') = false := by
    rw [Bool.and_eq_false_iff, beq_eq_false_iff_ne, beq_eq_false_iff_ne]
    by_cases hq : quote = '"'
    · exact Or.inr (hslash hq)
    · exact Or.inl hq
  unfold readQuotedRun
  simp only [leads_bind, leads_peek, hahead, hgap, Bool.false_eq_true, if_false,
    beq_eq_false_iff_ne.2 hne, hesc, leads_skip]
  exact (leads_need (h.skip (isBreak_of_isGap hgap)) 2).mono fun _ c₁ hc₁ => hgo c₁ hc₁.1

/-- A run goes on after two quotes with the one they stand for. -/
theorem leads_readQuotedRun_quote {acc : List Char} {fuel : Nat}
    {Q : List Char × Bool → Cursor → Prop} (h : At N c ('\'' :: '\'' :: rest) m 2)
    (hgo : ∀ c', At N c' rest (m.over ['\'', '\'']) 2 →
      Leads b (readQuotedRun start '\'' fuel ('\'' :: acc)) c' Q) :
    Leads b (readQuotedRun start '\'' (fuel + 1) acc) c Q := by
  have hahead : c.ahead 0 = '\'' := h.headD
  have hnext : c.ahead 1 = '\'' := h.ahead Nat.one_lt_two
  have hgap : isGap '\'' = false := by decide
  have hbreak : isBreak '\'' = false := by decide
  unfold readQuotedRun
  simp only [leads_bind, leads_peek, hahead, hgap, Bool.false_eq_true, if_false,
    beq_self_eq_true, if_true, leads_peekAt, hnext, Bool.and_true, leads_skip]
  exact (leads_need ((h.skip hbreak).skip hbreak) 2).mono fun _ c₁ hc₁ => hgo c₁ hc₁.1

theorem isGap_quote (hquote : quote = '\'' ∨ quote = '"') : isGap quote = false := by
  rcases hquote with rfl | rfl
  · decide
  · decide

/-- A run ends at a gap, and at a quote that is not one of two. -/
theorem leads_readQuotedRun_stop {acc : List Char} {fuel : Nat} (hquote : quote = '\'' ∨ quote = '"')
    (hstop : StopsRun quote rest) (h : At N c rest m 2) :
    Leads b (readQuotedRun start quote (fuel + 1) acc) c fun a c' => a = (acc, false) ∧ c' = c := by
  have hahead : c.ahead 0 = rest.headD endChar := h.headD
  have hnext : c.ahead 1 = rest.getD 1 endChar := h.ahead Nat.one_lt_two
  unfold readQuotedRun
  simp only [leads_bind, leads_peek, hahead]
  rcases hstop with hgap | ⟨hclose, hdouble⟩
  · rw [if_pos hgap]
    exact ⟨rfl, rfl⟩
  · have hgap : isGap quote = false := isGap_quote hquote
    have hsingle : (quote == '\'' && rest.getD 1 endChar == '\'') = false := by
      rw [Bool.and_eq_false_iff, beq_eq_false_iff_ne, beq_eq_false_iff_ne]
      by_cases hq : quote = '\''
      · exact Or.inr (hdouble hq)
      · exact Or.inl hq
    simp only [hclose, hgap, Bool.false_eq_true, if_false, beq_self_eq_true, if_true, leads_bind,
      leads_peekAt, hnext, hsingle, leads_pure]
    exact ⟨trivial, trivial⟩

/-- A run of pieces is read to its end. -/
theorem leads_readQuotedRun {ws cs : List Char} (hquote : quote = '\'' ∨ quote = '"')
    (hstop : StopsRun quote rest) (hp : Pieces quote ws cs) :
    ∀ {c : Cursor} {m : Mark} {fuel : Nat} {acc : List Char}, At N c (ws ++ rest) m 2 →
      cs.length < fuel →
      Leads b (readQuotedRun start quote fuel acc) c fun a c' =>
        a = (cs.reverse ++ acc, false) ∧ At N c' rest (m.over ws) 2 := by
  induction hp with
  | nil =>
    intro c m fuel acc h hfuel
    obtain ⟨fuel, rfl⟩ : ∃ n, fuel = n + 1 := ⟨fuel - 1, by omega⟩
    refine (leads_readQuotedRun_stop hquote hstop h).mono ?_
    rintro _ _ ⟨rfl, rfl⟩
    exact ⟨rfl, h⟩
  | @cons w ws cs ch hpiece _ ih =>
    intro c m fuel acc h hfuel
    obtain ⟨fuel, rfl⟩ : ∃ n, fuel = n + 1 := ⟨fuel - 1, by omega⟩
    have hgo : ∀ c' : Cursor, At N c' (ws ++ rest) (m.over w) 2 →
        Leads b (readQuotedRun start quote fuel (ch :: acc)) c' fun a c'' =>
          a = ((ch :: cs).reverse ++ acc, false) ∧ At N c'' rest (m.over (w ++ ws)) 2 := by
      intro c' hc'
      rw [List.reverse_cons, List.append_assoc, Mark.over_append]
      exact ih hc' (Nat.lt_of_succ_lt_succ hfuel)
    rw [List.append_assoc] at h
    cases hpiece with
    | plain hgap hne hslash => exact leads_readQuotedRun_plain hgap hne hslash h hgo
    | quote hq =>
      subst hq
      exact leads_readQuotedRun_quote h hgo
    | letter hq hl hesc =>
      subst hq
      exact leads_readQuotedRun_escape (.letter rfl hl hesc) hl h hgo
    | number hq hl hds hesc hnum hvalid =>
      subst hq
      exact leads_readQuotedRun_escape (.number rfl hl hds hesc hnum hvalid) hl h hgo

/-! ## Contents -/

/-- What may be written between quotes for a text: runs of pieces with gaps between them. A gap that
ends a line is followed by spaces, unless nothing follows it. -/
inductive Content (quote : Char) : List Char → List Char → Prop where
  | run {ws cs : List Char} : Pieces quote ws cs → Content quote ws cs
  | step {ws cs gap W ds : List Char} : Pieces quote ws cs → gap ≠ [] →
      (∀ ch ∈ gap, isFiller ch = true) → isGap (W.headD quote) = false →
      (W = [] ∨ gap.getLast? = some ' ') → Content quote W ds →
      Content quote (ws ++ (gap ++ W)) (cs ++ ((({} : Gap).over gap).folded ++ ds))

theorem Piece.ne_nil {w : List Char} {ch : Char} (h : Piece quote w ch) : w ≠ [] := by
  cases h <;> exact List.cons_ne_nil _ _

theorem Pieces.length_le {ws cs : List Char} (h : Pieces quote ws cs) : cs.length ≤ ws.length := by
  induction h with
  | nil => exact Nat.le_refl _
  | cons hp _ ih =>
    have hpos := List.length_pos_iff.2 hp.ne_nil
    rw [List.length_cons, List.length_append]
    omega

theorem Mark.column_over_of_getLast? {cs : List Char} (h : cs.getLast? = some ' ') (m : Mark) :
    0 < (m.over cs).column := by
  obtain ⟨ds, rfl⟩ := List.getLast?_eq_some_iff.1 h
  rw [Mark.over_append]
  exact Nat.succ_pos _

/-- Between quotes a document does not end, and neither does the text. -/
theorem leads_readQuotedContent_succ {W acc : List Char} {fuel : Nat}
    {Q : List Char → Cursor → Prop} (hquote : quote = '\'' ∨ quote = '"')
    (h : At N c (W ++ quote :: rest) m 0) (hmark : W = [] ∨ 0 < m.column)
    (hgo : ∀ c', At N c' (W ++ quote :: rest) m 2 → Leads b (do
      let (acc, escapedBreak) ← readQuotedRun start quote (← bound) acc
      need 1
      if (← peek) == quote then return acc
      let gap ← readGap start none (← bound) { broken := escapedBreak }
      readQuotedContent start quote fuel (onto gap.folded acc)) c' Q) :
    Leads b (readQuotedContent start quote (fuel + 1) acc) c Q := by
  rw [readQuotedContent]
  simp only [leads_bind, leads_get]
  refine (leads_need h 4).mono fun _ c' hc => ?_
  -- a marker of a document would have to start a line
  have hdocument : c'.atDocumentMark = false := by
    rw [hc.1.atDocumentMark]
    rcases hmark with rfl | hcol
    · rcases hquote with rfl | rfl
      · exact Bool.and_false _
      · exact Bool.and_false _
    · have hzero : (m.column == 0) = false := beq_eq_false_iff_ne.2 (Nat.ne_of_gt hcol)
      rw [hzero, Bool.false_and, Bool.false_and]
  have hend : (c'.ahead 0 == endChar) = false := by
    rw [hc.1.headD, beq_eq_false_iff_ne]
    cases W with
    | nil => exact ne_endChar hc.1.clear.head
    | cons d W => exact ne_endChar hc.1.clear.head
  have hc' := hgo c' (hc.1.mono (by omega))
  simp only [leads_bind] at hc'
  simp only [hdocument, Bool.false_eq_true, if_false, leads_bind, leads_peek, hend]
  exact hc'

theorem isGap_of_isFiller {g : Char} (h : isFiller g = true) : isGap g = true := by
  simp only [isFiller, Bool.or_eq_true, beq_iff_eq] at h
  rcases h with rfl | h
  · rfl
  · simp only [isGap, h, Bool.or_true, Bool.true_or]

/-- The content of a quoted scalar is read to the closing quote. -/
theorem leads_readQuotedContent {W cs : List Char} (hquote : quote = '\'' ∨ quote = '"')
    (hclose : quote = '\'' → rest.headD endChar ≠ '\'') (hcontent : Content quote W cs) :
    ∀ {c : Cursor} {m : Mark} {fuel : Nat} {acc : List Char}, At N c (W ++ quote :: rest) m 0 →
      (W = [] ∨ 0 < m.column) → W.length < fuel →
      Leads b (readQuotedContent start quote fuel acc) c fun a c' =>
        a = cs.reverse ++ acc ∧ At N c' (quote :: rest) (m.over W) 1 := by
  have hstop : StopsRun quote (quote :: rest) := by
    refine Or.inr ⟨rfl, fun hq => ?_⟩
    have hhead : (quote :: rest).getD 1 endChar = rest.headD endChar := by cases rest <;> rfl
    rw [hhead]
    exact hclose hq
  induction hcontent with
  | @run ws cs hp =>
    intro c m fuel acc h hmark hfuel
    obtain ⟨fuel, rfl⟩ : ∃ n, fuel = n + 1 := ⟨fuel - 1, by omega⟩
    refine leads_readQuotedContent_succ hquote h hmark fun c' hc => ?_
    have hroom := hc.room
    rw [List.length_append] at hroom
    have hlen := hp.length_le
    simp only [leads_bind, leads_bound, leads_peek]
    refine (leads_readQuotedRun hquote hstop hp hc (by omega)).mono fun a c₁ hc₁ => ?_
    rw [hc₁.1]
    refine (leads_need hc₁.2 1).mono fun _ c₂ hc₂ => ?_
    have hahead : c₂.ahead 0 = quote := hc₂.1.headD
    rw [hahead, beq_self_eq_true, if_pos rfl]
    exact ⟨rfl, hc₂.1⟩
  | @step ws cs gap W ds hp hne hfiller hhead hlast _ ih =>
    intro c m fuel acc h hmark hfuel
    obtain ⟨fuel, rfl⟩ : ∃ n, fuel = n + 1 := ⟨fuel - 1, by omega⟩
    have hlen := hp.length_le
    have hpos := List.length_pos_iff.2 hne
    simp only [List.length_append] at hfuel
    refine leads_readQuotedContent_succ hquote h hmark fun c' hc => ?_
    have hroom := hc.room
    simp only [List.length_append] at hroom
    rw [List.append_assoc, List.append_assoc] at hc
    obtain ⟨g, gs, rfl⟩ := List.exists_cons_of_ne_nil hne
    have hgap : isGap g = true := isGap_of_isFiller (hfiller g List.mem_cons_self)
    have hgquote : (g == quote) = false := by
      rw [beq_eq_false_iff_ne]
      rintro rfl
      exact Bool.false_ne_true ((isGap_quote hquote).symm.trans hgap)
    have hnext : isGap ((W ++ quote :: rest).headD endChar) = false := by
      cases W with
      | nil => exact hhead
      | cons d W => exact hhead
    simp only [leads_bind, leads_bound, leads_peek]
    have hstop' : StopsRun quote (g :: gs ++ (W ++ quote :: rest)) := Or.inl hgap
    refine (leads_readQuotedRun hquote hstop' hp hc (by omega)).mono fun a c₁ hc₁ => ?_
    rw [hc₁.1]
    refine (leads_need hc₁.2 1).mono fun _ c₂ hc₂ => ?_
    have hahead : c₂.ahead 0 = g := hc₂.1.headD
    have hroom₂ := hc₂.1.room
    rw [List.length_append] at hroom₂
    simp only [hahead, hgquote, Bool.false_eq_true, if_false, leads_bind, leads_bound]
    -- the gap is read up to the next run, and the rest by induction
    refine (leads_readGap hfiller ⟨isSpaceOrTab_of_isGap hnext, isBreak_of_isGap hnext⟩ hc₂.1
      (by omega)).mono fun a c₃ hc₃ => ?_
    rw [hc₃.1]
    refine (ih (hc₃.2.mono (Nat.zero_le 1)) ?_ (by omega)).mono fun a c₄ hc₄ => ⟨?_, ?_⟩
    · exact hlast.imp_right fun hlast => Mark.column_over_of_getLast? hlast _
    · rw [hc₄.1, onto, List.reverse_append, List.reverse_append, List.append_assoc, List.append_assoc]
    · rw [Mark.over_append, Mark.over_append]
      exact hc₄.2

/-- A quoted scalar is read to its end. -/
theorem leads_readQuoted {W cs : List Char} (hquote : quote = '\'' ∨ quote = '"')
    (hclose : quote = '\'' → rest.headD endChar ≠ '\'') (hcontent : Content quote W cs)
    (h : At N c (quote :: (W ++ quote :: rest)) m 1) :
    Leads b (readQuoted quote) c fun a c' =>
      a.kind = .scalar (Utf8.encode cs) false ∧ ∃ m', 0 < m'.column ∧ At N c' rest m' 0 := by
  have hroom := h.room
  rw [List.length_cons, List.length_append] at hroom
  have hbreak : isBreak quote = false := isBreak_of_isGap (isGap_quote hquote)
  have hpast : ∀ k : Mark, 0 < (k.past quote).column := by
    intro k
    unfold Mark.past
    rw [hbreak]
    exact Nat.succ_pos _
  have hskip := h.skip hbreak
  have hbound : c.skip.bound = c.bound := by
    unfold Cursor.skip
    split <;> rfl
  unfold readQuoted
  simp only [leads_bind, leads_mark, leads_skip, leads_bound, leads_pure]
  refine (leads_readQuotedContent hquote hclose hcontent hskip (Or.inr (hpast m))
    (by rw [hbound]; omega)).mono fun a c₁ hc₁ => ⟨?_, _, hpast _, hc₁.2.skip hbreak⟩
  rw [hc₁.1, List.append_nil, List.reverse_reverse]

end

/-! ## Escapes -/

theorem hexDigit_spec {d : Nat} (h : d < 16) :
    hexValue? (Char.ofNat (Text.hexDigit 65 d).toNat) = some d ∧
      isBreak (Char.ofNat (Text.hexDigit 65 d).toNat) = false ∧
      Style.isSpecial (Char.ofNat (Text.hexDigit 65 d).toNat) = false := by
  have hall : ∀ d : Fin 16, hexValue? (Char.ofNat (Text.hexDigit 65 d).toNat) = some d.val ∧
      isBreak (Char.ofNat (Text.hexDigit 65 d).toNat) = false ∧
      Style.isSpecial (Char.ofNat (Text.hexDigit 65 d).toNat) = false := by
    decide
  exact hall ⟨d, h⟩

/-- The digits of a number are read on from those in front. -/
theorem hexNumber?_append (ds es : List Char) : ∀ {n k : Nat}, hexNumber? n ds = some k →
    hexNumber? n (ds ++ es) = hexNumber? k es := by
  induction ds with
  | nil =>
    intro n k h
    obtain rfl : n = k := Option.some.inj h
    rfl
  | cons d ds ih =>
    intro n k h
    simp only [hexNumber?, List.cons_append, Option.bind_eq_bind] at h ⊢
    cases hd : hexValue? d with
    | none =>
      rw [hd] at h
      cases h
    | some v =>
      rw [hd] at h
      exact ih h

/-- The digits that a number is written with have its value. -/
theorem hexNumber?_hex (width : Nat) : ∀ {n : Nat}, n < 16 ^ width →
    hexNumber? 0 ((Text.hex 65 width n).map fun x => Char.ofNat x.toNat) = some n := by
  induction width with
  | zero =>
    intro n h
    obtain rfl : n = 0 := by omega
    rfl
  | succ width ih =>
    intro n h
    have hdiv : n / 16 < 16 ^ width := by
      rw [Nat.pow_succ] at h
      omega
    rw [Text.hex, List.map_append, hexNumber?_append _ _ (ih hdiv)]
    simp only [List.map_cons, List.map_nil, hexNumber?, Option.bind_eq_bind,
      (hexDigit_spec (Nat.mod_lt n (by decide : 0 < 16))).1, Option.bind_some]
    congr 1
    omega

theorem length_hex (width n : Nat) : (Text.hex 65 width n).length = width := by
  induction width generalizing n with
  | zero => rfl
  | succ width ih => rw [Text.hex, List.length_append, ih, List.length_singleton]

theorem mem_hex {width n : Nat} {x : UInt8} (h : x ∈ Text.hex 65 width n) :
    ∃ d < 16, x = Text.hexDigit 65 d := by
  induction width generalizing n with
  | zero => cases h
  | succ width ih =>
    rw [Text.hex, List.mem_append, List.mem_singleton] at h
    rcases h with h | h
    · exact ih h
    · exact ⟨n % 16, Nat.mod_lt n (by decide), h⟩

theorem hexDigits_spec {width : Nat} {c d : Char} (h : d ∈ Style.hexDigits width c) :
    isBreak d = false ∧ Style.isSpecial d = false := by
  obtain ⟨x, hx, rfl⟩ := List.mem_map.1 h
  obtain ⟨v, hv, rfl⟩ := mem_hex hx
  exact (hexDigit_spec hv).2

/-- A number of so many digits stands for its character. -/
theorem piece_number {width : Nat} {l c : Char} (hl : escape? l = some (.number width))
    (hbreak : isBreak l = false) (hc : c.toNat < 16 ^ width) :
    Piece '"' ('\\' :: l :: Style.hexDigits width c) c := by
  have hlen : (Style.hexDigits width c).length = width := by
    rw [Style.hexDigits, List.length_map]
    exact length_hex width _
  have hp : Piece '"' ('\\' :: l :: Style.hexDigits width c) (Char.ofNat c.toNat) := by
    refine .number rfl hbreak (fun d hd => (hexDigits_spec hd).1) ?_ (hexNumber?_hex width hc) ?_
    · rw [hlen]
      exact hl
    · have := Utf8.toNat_bounds c
      omega
  rwa [Char.ofNat_toNat] at hp

theorem escapeLetter?_spec {l c : Char} (h : Style.escapeLetter? c = some l) :
    escape? l = some (.char c) ∧ isBreak l = false ∧ Style.isSpecial l = false := by
  obtain ⟨front, back, htable, -⟩ := List.lookup_eq_some_iff.1 h
  have hmem : (c.toNat, l) ∈ front ++ (c.toNat, l) :: back :=
    List.mem_append_right _ List.mem_cons_self
  rw [← htable] at hmem
  rw [← Char.ofNat_toNat c]
  simp only [List.mem_cons, Prod.mk.injEq, List.not_mem_nil, or_false] at hmem
  rcases hmem with h | h | h | h | h | h | h | h | h | h | h | h | h | h | h <;>
    · rw [h.1, h.2]
      exact ⟨rfl, by decide, by decide⟩

theorem piece_escape (c : Char) : Piece '"' (Style.escape c) c := by
  unfold Style.escape
  split
  · rename_i l hl
    obtain ⟨hesc, hbreak, -⟩ := escapeLetter?_spec hl
    exact .letter rfl hbreak hesc
  · have hbound := Utf8.toNat_bounds c
    split
    · exact piece_number rfl (by decide) (by omega)
    · split
      · exact piece_number rfl (by decide) (by omega)
      · exact piece_number rfl (by decide) (by omega)

/-! ## Double quotes -/

theorem pieces_flatMap {quote : Char} {f : Char → List Char} : ∀ {w : List Char},
    (∀ c ∈ w, Piece quote (f c) c) → Pieces quote (w.flatMap f) w := by
  intro w
  induction w with
  | nil => exact fun _ => .nil
  | cons c w ih =>
    intro h
    rw [List.flatMap_cons]
    exact .cons (h c List.mem_cons_self) (ih fun d hd => h d (List.mem_cons_of_mem _ hd))

theorem Piece.head_isGap {quote c : Char} {w : List Char} (h : Piece quote w c) :
    isGap (w.headD quote) = false := by
  cases h with
  | plain hgap => exact hgap
  | quote => rfl
  | letter => rfl
  | number => rfl

theorem headD_flatMap_isGap {quote : Char} {f : Char → List Char} {cs : List Char}
    (hquote : isGap quote = false) (hcs : ∀ c ∈ cs.head?, Piece quote (f c) c) :
    isGap ((cs.flatMap f).headD quote) = false := by
  cases cs with
  | nil => exact hquote
  | cons c cs =>
    have hp := hcs c rfl
    obtain ⟨d, w, hw⟩ := List.exists_cons_of_ne_nil hp.ne_nil
    have hhead := hp.head_isGap
    rw [List.flatMap_cons, hw]
    rw [hw] at hhead
    exact hhead

theorem getLast?_spaces (n : Nat) : (Style.spaces (n + 1)).getLast? = some ' ' := by
  rw [Style.spaces, List.getLast?_replicate]
  rfl

/-- Spaces on one line count as they are. -/
theorem Gap.folded_over_spaces (n : Nat) : (({} : Gap).over (Style.spaces n)).folded = Style.spaces n := by
  rw [Gap.over_spaces _ rfl]
  rfl

/-- A text is written between quotes when each character is written as a piece, or is a space and is
written as it is. -/
theorem content_flatMap {quote : Char} {f : Char → List Char} (hquote : isGap quote = false) :
    ∀ cs : List Char, (∀ c ∈ cs, Piece quote (f c) c ∨ c = ' ' ∧ f c = [' ']) →
      Content quote (cs.flatMap f) cs := by
  have hpiece : ∀ {c : Char}, (Piece quote (f c) c ∨ c = ' ' ∧ f c = [' ']) →
      decide (f c = [' ']) = false → Piece quote (f c) c :=
    fun h hc => h.resolve_right fun hsp => of_decide_eq_false hc hsp.2
  -- word by word: the gaps are the characters that are written as a space
  refine words_induction (fun c => decide (f c = [' '])) ?_ ?_
  · intro w hw h
    exact .run (pieces_flatMap fun c hc => hpiece (h c hc) (hw c hc))
  · intro w gap cs hw hgap hspace hcs ih h
    -- no other character is written as a space, since a piece starts with no gap
    have hsp : ∀ c ∈ gap, c = ' ' ∧ f c = [' '] := by
      intro c hc
      have hfc : f c = [' '] := of_decide_eq_true (hspace c hc)
      refine (h c (List.mem_append_right _ (List.mem_append_left _ hc))).resolve_left fun hp => ?_
      have hhead := hp.head_isGap
      rw [hfc] at hhead
      exact Bool.noConfusion hhead
    obtain ⟨n, rfl⟩ := eq_spaces hgap fun c hc => beq_iff_eq.2 (hsp c hc).1
    have hf : f ' ' = [' '] := (hsp ' ' List.mem_cons_self).2
    have hwritten : (Style.spaces (n + 1)).flatMap f = Style.spaces (n + 1) := by
      rw [Style.spaces, List.flatMap_replicate, hf, List.flatten_replicate_singleton]
    have hread : Content quote (w.flatMap f ++ (Style.spaces (n + 1) ++ cs.flatMap f))
        (w ++ ((({} : Gap).over (Style.spaces (n + 1))).folded ++ cs)) := by
      refine .step (pieces_flatMap fun c hc => hpiece (h c (List.mem_append_left _ hc)) (hw c hc)) hgap
        (fun c hc => ?_) (headD_flatMap_isGap hquote fun c hc => ?_) (Or.inr (getLast?_spaces n))
        (ih fun c hc => h c (List.mem_append_right _ (List.mem_append_right _ hc)))
      · rw [mem_spaces hc]
        rfl
      · exact hpiece (h c (List.mem_append_right _ (List.mem_append_right _ (List.mem_of_mem_head? hc))))
          (hcs c hc)
    rwa [Gap.folded_over_spaces, ← hwritten, ← List.flatMap_append, ← List.flatMap_append, hwritten] at hread

/-- In double quotes a character is written as a piece that stands for it, or is a space. -/
theorem inDouble_spec (c : Char) :
    Piece '"' (Style.inDouble c) c ∨ c = ' ' ∧ Style.inDouble c = [' '] := by
  unfold Style.inDouble
  split
  · exact Or.inl (piece_escape c)
  · rename_i hplain
    simp only [Bool.or_eq_true, Bool.not_eq_true', beq_iff_eq, not_or, Bool.not_eq_false,
      Bool.not_eq_true] at hplain
    obtain ⟨⟨⟨hwritable, hbreak⟩, hquote⟩, hslash⟩ := hplain
    by_cases hspace : c = ' '
    · exact Or.inr ⟨hspace, by rw [hspace]⟩
    · refine Or.inl (.plain ?_ hquote fun _ => hslash)
      have htab : c ≠ '\t' := by
        rintro rfl
        exact absurd hwritable (by decide)
      have hend : c ≠ endChar := by
        rintro rfl
        exact absurd hwritable (by decide)
      simp only [isGap, isSpaceOrTab, hbreak, Bool.or_false, Bool.or_eq_false_iff, beq_eq_false_iff_ne]
      exact ⟨⟨hspace, htab⟩, hend⟩

/-- Every text can be written between double quotes. -/
theorem content_doubled (cs : List Char) : Content '"' (Style.doubled cs) cs := by
  refine content_flatMap (by decide) cs fun c _ => ?_
  split
  · exact Or.inl (piece_escape c)
  · exact inDouble_spec c

/-! ## Single quotes -/

section Lines

variable {indent : Nat} {cs : List Char}

theorem indented_word {w : List Char} (h : ∀ c ∈ w, isBreak c = false) :
    Style.indented indent false (w ++ cs) = w ++ Style.indented indent false cs := by
  induction w with
  | nil => rfl
  | cons c w ih =>
    rw [List.cons_append, Style.indented, h c List.mem_cons_self, if_neg Bool.false_ne_true,
      if_neg Bool.false_ne_true, List.nil_append, ih fun d hd => h d (List.mem_cons_of_mem _ hd)]
    rfl

theorem indented_breaks {gap : List Char} (hne : gap ≠ []) (h : ∀ c ∈ gap, isBreak c = true)
    (atStart : Bool) :
    Style.indented indent atStart (gap ++ cs) = gap ++ Style.indented indent true cs := by
  induction gap generalizing atStart with
  | nil => exact absurd rfl hne
  | cons c gap ih =>
    rw [List.cons_append, Style.indented, h c List.mem_cons_self, if_pos rfl, List.cons_append]
    cases gap with
    | nil => rfl
    | cons d gap => rw [ih (List.cons_ne_nil _ _) fun e he => h e (List.mem_cons_of_mem _ he)]

theorem indented_start (hne : cs ≠ []) (h : ∀ c ∈ cs.head?, isBreak c = false) :
    Style.indented indent true cs = Style.spaces indent ++ Style.indented indent false cs := by
  cases cs with
  | nil => exact absurd rfl hne
  | cons c cs =>
    rw [Style.indented, Style.indented, h c rfl, if_neg Bool.false_ne_true, if_pos rfl,
      if_neg Bool.false_ne_true, if_neg Bool.false_ne_true, List.nil_append]

end Lines

theorem adjacent_append {p q : Char → Bool} {ds : List Char} : ∀ {cs : List Char},
    Style.adjacent p q (cs ++ ds) = false →
      Style.adjacent p q cs = false ∧ Style.adjacent p q ds = false := by
  intro cs
  induction cs with
  | nil => exact fun h => ⟨rfl, h⟩
  | cons c cs ih =>
    intro h
    cases cs with
    | nil =>
      cases ds with
      | nil => exact ⟨rfl, rfl⟩
      | cons d ds => exact ⟨rfl, (Bool.or_eq_false_iff.1 h).2⟩
    | cons d cs =>
      obtain ⟨hfirst, hrest⟩ := Bool.or_eq_false_iff.1 h
      obtain ⟨hcs, hds⟩ := ih hrest
      exact ⟨Bool.or_eq_false_iff.2 ⟨hfirst, hcs⟩, hds⟩

/-- Where spaces and breaks are not next to each other, a run of both is a run of one. -/
theorem forall_space_or_forall_break {gap : List Char} (hfiller : ∀ c ∈ gap, isFiller c = true)
    (hbs : Style.adjacent isBreak Style.isSpace gap = false)
    (hsb : Style.adjacent Style.isSpace isBreak gap = false) :
    (∀ c ∈ gap, (c == ' ') = true) ∨ ∀ c ∈ gap, isBreak c = true := by
  induction gap with
  | nil => exact Or.inl nofun
  | cons c gap ih =>
    have hc : (c == ' ') = true ∨ isBreak c = true := Bool.or_eq_true_iff.1 (hfiller c List.mem_cons_self)
    cases gap with
    | nil =>
      refine hc.imp (fun hc d hd => ?_) fun hc d hd => ?_
      · rwa [List.mem_singleton.1 hd]
      · rwa [List.mem_singleton.1 hd]
    | cons d gap =>
      obtain ⟨hbs, hbs'⟩ := Bool.or_eq_false_iff.1 hbs
      obtain ⟨hsb, hsb'⟩ := Bool.or_eq_false_iff.1 hsb
      -- the first character is of the kind of the second one
      rcases ih (fun e he => hfiller e (List.mem_cons_of_mem _ he)) hbs' hsb' with hall | hall
      · refine Or.inl fun e he => ?_
        rcases List.mem_cons.1 he with rfl | he
        · refine hc.resolve_right fun hbreak => ?_
          rw [hbreak, Style.isSpace, hall d List.mem_cons_self] at hbs
          cases hbs
        · exact hall e he
      · refine Or.inr fun e he => ?_
        rcases List.mem_cons.1 he with rfl | he
        · refine hc.resolve_left fun hspace => ?_
          rw [Style.isSpace, hspace, hall d List.mem_cons_self] at hsb
          cases hsb
        · exact hall e he

/-- After a break, all other breaks are kept. -/
theorem Gap.over_breaks_of_broken {gap : List Char} (hbreak : ∀ c ∈ gap, isBreak c = true) :
    ∀ {g : Gap}, g.broken = true → g.over gap = { g with more := g.more ++ gap } := by
  induction gap with
  | nil =>
    intro g _
    rw [List.append_nil]
    rfl
  | cons c gap ih =>
    intro g hg
    have hpast : g.past c = { g with more := g.more ++ [c] } := by
      unfold Gap.past
      rw [if_pos (hbreak c List.mem_cons_self), hg]
      rfl
    show (g.past c).over gap = _
    rw [hpast, ih (fun d hd => hbreak d (List.mem_cons_of_mem _ hd))
      (g := { g with more := g.more ++ [c] }) hg, List.append_assoc]
    rfl

/-- Line breaks other than the line feed are kept, and the spaces after them are not. -/
theorem Gap.folded_over_breaks {gap : List Char} (n : Nat) (hne : gap ≠ [])
    (hbreak : ∀ c ∈ gap, isBreak c = true) (hfeed : '\n' ∉ gap) :
    (({} : Gap).over (gap ++ Style.spaces n)).folded = gap := by
  obtain ⟨c, gap, rfl⟩ := List.exists_cons_of_ne_nil hne
  have hpast : ({} : Gap).past c = { spaces := [], first := [c], more := [], broken := true } := by
    unfold Gap.past
    rw [if_pos (hbreak c List.mem_cons_self)]
    rfl
  have hover : ({} : Gap).over (c :: gap ++ Style.spaces n) =
      { spaces := [], first := [c], more := gap, broken := true } := by
    rw [Gap.over, List.foldl_append]
    show (((({} : Gap).past c).over gap).over (Style.spaces n)) = _
    rw [hpast, Gap.over_breaks_of_broken (fun d hd => hbreak d (List.mem_cons_of_mem _ hd)) rfl,
      Gap.over_spaces_of_broken n rfl]
    rfl
  have hfirst : ([c] == ['\n']) = false := by
    rw [beq_eq_false_iff_ne]
    rintro h
    exact hfeed ((List.cons.inj h).1 ▸ List.mem_cons_self)
  rw [hover]
  show (if [c] == ['\n'] then _ else [c] ++ gap) = c :: gap
  rw [hfirst]
  rfl

/-- What the rule for single quotes asks of a text without line feeds. -/
structure SingleRule (cs : List Char) : Prop where
  breakSpace : Style.adjacent isBreak Style.isSpace cs = false
  spaceBreak : Style.adjacent Style.isSpace isBreak cs = false
  tab : '\t' ∉ cs
  clear : Clear cs
  feed : '\n' ∉ cs

theorem singleRule_of_allowsSingle {cs : List Char} (h : Style.allowsSingle cs = true)
    (hfeed : '\n' ∉ cs) : SingleRule cs := by
  simp only [Style.allowsSingle, Bool.not_eq_true', Bool.or_eq_false_iff, List.any_eq_false] at h
  obtain ⟨⟨⟨hbs, hsb⟩, htab⟩, hclear⟩ := h
  refine ⟨hbs, hsb, ?_, fun c hc => ?_, hfeed⟩
  · simpa using htab
  · simpa using hclear c hc

theorem SingleRule.isGap_eq {cs : List Char} (h : SingleRule cs) {c : Char} (hc : c ∈ cs) :
    isGap c = isFiller c := by
  have htab : (c == '\t') = false := beq_eq_false_iff_ne.2 fun heq => h.tab (heq ▸ hc)
  have hend : (c == endChar) = false := beq_eq_false_iff_ne.2 (ne_endChar (h.clear c hc))
  unfold isGap isFiller isSpaceOrTab
  rw [htab, hend, Bool.or_false, Bool.or_false]

theorem SingleRule.of_append {cs ds : List Char} (h : SingleRule (cs ++ ds)) :
    SingleRule cs ∧ SingleRule ds := by
  obtain ⟨hbs, hbs'⟩ := adjacent_append h.breakSpace
  obtain ⟨hsb, hsb'⟩ := adjacent_append h.spaceBreak
  obtain ⟨hclear, hclear'⟩ := clear_append.1 h.clear
  obtain ⟨htab, htab'⟩ := not_or.1 (mt List.mem_append.2 h.tab)
  obtain ⟨hfeed, hfeed'⟩ := not_or.1 (mt List.mem_append.2 h.feed)
  exact ⟨⟨hbs, hsb, htab, hclear, hfeed⟩, ⟨hbs', hsb', htab', hclear', hfeed'⟩⟩

theorem piece_single {c : Char} (h : isGap c = false) :
    Piece '\'' (if c == '\'' then ['\'', '\''] else [c]) c := by
  by_cases hc : c = '\''
  · subst hc
    exact .quote rfl
  · rw [if_neg (by simpa using hc)]
    exact .plain h hc nofun

theorem doubleQuotes_filler {gap : List Char} (h : ∀ c ∈ gap, isFiller c = true) :
    Style.doubleQuotes gap = gap := by
  induction gap with
  | nil => rfl
  | cons c gap ih =>
    have hc : (c == '\'') = false := by
      rw [beq_eq_false_iff_ne]
      rintro rfl
      exact absurd (h '\'' List.mem_cons_self) (by decide)
    have ih := ih fun d hd => h d (List.mem_cons_of_mem _ hd)
    unfold Style.doubleQuotes at ih ⊢
    rw [List.flatMap_cons, hc, ih]
    rfl

theorem doubleQuotes_append (cs ds : List Char) :
    Style.doubleQuotes (cs ++ ds) = Style.doubleQuotes cs ++ Style.doubleQuotes ds :=
  List.flatMap_append

theorem head?_indented (indent : Nat) (cs : List Char) :
    (Style.indented indent false cs).head? = cs.head? := by
  cases cs with
  | nil => rfl
  | cons c cs =>
    rw [Style.indented]
    split <;> rfl

theorem filler_spaces {n : Nat} {c : Char} (h : c ∈ Style.spaces n) : isFiller c = true := by
  rw [mem_spaces h]
  rfl

theorem headD_doubleQuotes_isGap (indent : Nat) {cs : List Char} (hcs : ∀ c ∈ cs.head?, isGap c = false) :
    isGap ((Style.doubleQuotes (Style.indented indent false cs)).headD '\'') = false := by
  refine headD_flatMap_isGap (by decide) fun c hc => piece_single ?_
  rw [head?_indented] at hc
  exact hcs c hc

/-- Breaks behind a run of pieces, with the spaces that the next line is indented by. -/
theorem Content.breaks {indent : Nat} (hindent : 0 < indent) {ws w gap cs : List Char}
    (hpieces : Pieces '\'' ws w) (hne : gap ≠ []) (hbreak : ∀ c ∈ gap, isBreak c = true)
    (hfeed : '\n' ∉ gap) (hcs : ∀ c ∈ cs.head?, isGap c = false)
    (h : Content '\'' (Style.doubleQuotes (Style.indented indent false cs)) cs) :
    Content '\'' (ws ++ (gap ++ Style.doubleQuotes (Style.indented indent true cs)))
      (w ++ (gap ++ cs)) := by
  have hhead := headD_doubleQuotes_isGap indent hcs
  have hfiller : ∀ c ∈ gap, isFiller c = true := fun c hc => Bool.or_eq_true_iff.2 (Or.inr (hbreak c hc))
  by_cases hnil : cs = []
  · subst hnil
    have hstep := Content.step hpieces hne hfiller hhead (Or.inl rfl) h
    have hfolded := Gap.folded_over_breaks 0 hne hbreak hfeed
    rw [Style.spaces, List.replicate_zero, List.append_nil] at hfolded
    rwa [hfolded] at hstep
  · have hstart : Style.indented indent true cs = Style.spaces indent ++ Style.indented indent false cs :=
      indented_start hnil fun c hc => isBreak_of_isGap (hcs c hc)
    have hfiller' : ∀ c ∈ gap ++ Style.spaces indent, isFiller c = true :=
      List.forall_mem_append.2 ⟨hfiller, fun c hc => filler_spaces hc⟩
    have hlast : (gap ++ Style.spaces indent).getLast? = some ' ' := by
      obtain ⟨n, rfl⟩ : ∃ n, indent = n + 1 := ⟨indent - 1, by omega⟩
      rw [List.getLast?_append, getLast?_spaces]
      rfl
    have hstep := Content.step hpieces (List.append_ne_nil_of_left_ne_nil hne _) hfiller' hhead
      (Or.inr hlast) h
    rw [Gap.folded_over_breaks indent hne hbreak hfeed] at hstep
    rwa [hstart, doubleQuotes_append, doubleQuotes_filler fun c hc => filler_spaces hc,
      ← List.append_assoc gap]

/-- A text that the rule for single quotes allows can be written between them. -/
theorem content_single {indent : Nat} (hindent : 0 < indent) : ∀ cs : List Char, SingleRule cs →
    Content '\'' (Style.doubleQuotes (Style.indented indent false cs)) cs := by
  refine words_induction isFiller ?_ ?_
  · intro w hw h
    have hgap : ∀ c ∈ w, isGap c = false := fun c hc => (h.isGap_eq hc).trans (hw c hc)
    have hword : Style.indented indent false (w ++ []) = w ++ Style.indented indent false [] :=
      indented_word fun c hc => isBreak_of_isGap (hgap c hc)
    rw [List.append_nil, Style.indented, List.append_nil] at hword
    rw [hword]
    exact .run (pieces_flatMap fun c hc => piece_single (hgap c hc))
  · intro w gap cs hw hne hfiller hcs ih h
    obtain ⟨hruleWord, hrest⟩ := h.of_append
    obtain ⟨hruleGap, hruleTail⟩ := hrest.of_append
    have hgap : ∀ c ∈ w, isGap c = false := fun c hc => (hruleWord.isGap_eq hc).trans (hw c hc)
    have hnext : ∀ c ∈ cs.head?, isGap c = false := fun c hc =>
      (hruleTail.isGap_eq (List.mem_of_mem_head? hc)).trans (hcs c hc)
    have hpieces : Pieces '\'' (Style.doubleQuotes w) w :=
      pieces_flatMap fun c hc => piece_single (hgap c hc)
    rw [indented_word fun c hc => isBreak_of_isGap (hgap c hc), doubleQuotes_append]
    rcases forall_space_or_forall_break hfiller hruleGap.breakSpace hruleGap.spaceBreak
      with hspace | hbreak
    · obtain ⟨n, rfl⟩ := eq_spaces hne hspace
      have hstep := Content.step hpieces hne hfiller (headD_doubleQuotes_isGap indent hnext)
        (Or.inr (getLast?_spaces n)) (ih hruleTail)
      rw [Gap.folded_over_spaces] at hstep
      rwa [indented_word fun c hc => by rw [mem_spaces hc]; rfl, doubleQuotes_append,
        doubleQuotes_filler hfiller]
    · rw [indented_breaks hne hbreak, doubleQuotes_append, doubleQuotes_filler hfiller]
      exact .breaks hindent hpieces hne hbreak hruleGap.feed hnext (ih hruleTail)

/-! ## Characters of the written forms -/

theorem mem_indented {indent : Nat} {atStart : Bool} {cs : List Char} {d : Char}
    (h : d ∈ Style.indented indent atStart cs) : d = ' ' ∨ d ∈ cs := by
  induction cs generalizing atStart with
  | nil => cases h
  | cons c cs ih =>
    rw [Style.indented] at h
    split at h
    · rcases List.mem_cons.1 h with rfl | h
      · exact Or.inr List.mem_cons_self
      · exact (ih h).imp_right (List.mem_cons_of_mem _)
    · rcases List.mem_append.1 h with h | h
      · split at h
        · exact Or.inl (mem_spaces h)
        · cases h
      · rcases List.mem_cons.1 h with rfl | h
        · exact Or.inr List.mem_cons_self
        · exact (ih h).imp_right (List.mem_cons_of_mem _)

theorem clear_indented {indent : Nat} {atStart : Bool} {cs : List Char} (h : Clear cs) :
    Clear (Style.indented indent atStart cs) := by
  intro d hd
  rcases mem_indented hd with rfl | hd
  · decide
  · exact h d hd

theorem clear_doubleQuotes {cs : List Char} (h : Clear cs) : Clear (Style.doubleQuotes cs) := by
  intro d hd
  obtain ⟨c, hc, hd⟩ := List.mem_flatMap.1 hd
  have hspecial := h c hc
  by_cases hquote : c = '\''
  · subst hquote
    obtain rfl : d = '\'' := by simpa using hd
    exact hspecial
  · rw [if_neg (by simpa using hquote), List.mem_singleton] at hd
    rwa [hd]

theorem clear_escape (c : Char) : Clear (Style.escape c) := by
  have hdigits : ∀ (l : Char) (width : Nat), Style.isSpecial l = false →
      Clear ('\\' :: l :: Style.hexDigits width c) := by
    intro l width hl d hd
    rcases List.mem_cons.1 hd with rfl | hd
    · decide
    · rcases List.mem_cons.1 hd with rfl | hd
      · exact hl
      · exact (hexDigits_spec hd).2
  unfold Style.escape
  split
  · rename_i l hl
    intro d hd
    rcases List.mem_cons.1 hd with rfl | hd
    · decide
    · rw [List.mem_singleton.1 hd]
      exact (escapeLetter?_spec hl).2.2
  · split
    · exact hdigits 'x' 2 (by decide)
    · split
      · exact hdigits 'u' 4 (by decide)
      · exact hdigits 'U' 8 (by decide)

theorem clear_inDouble (c : Char) : Clear (Style.inDouble c) := by
  unfold Style.inDouble
  split
  · exact clear_escape c
  · rename_i hplain
    intro d hd
    rw [List.mem_singleton.1 hd]
    simp only [Bool.or_eq_true, Bool.not_eq_true', not_or, Bool.not_eq_false] at hplain
    rw [Style.isSpecial, hplain.1.1.1, Bool.not_true, Bool.and_false]

theorem clear_doubled (cs : List Char) : Clear (Style.doubled cs) := by
  intro d hd
  obtain ⟨c, -, hd⟩ := List.mem_flatMap.1 hd
  split at hd
  · exact clear_escape c d hd
  · exact clear_inDouble c d hd

end TreeLang.Yaml.Scalar
