import TreeLang.Proofs.Yaml.Layout

/-!
# The tokens of a layout

The text of a layout that fits is read as the tokens of that layout, or of what is read back of it.

Each statement has what comes behind as a hypothesis: if reading on from behind the text delivers
`ks`, then reading the text delivers the kinds of the layout and then `ks`. Block collections are
not ended by their own text but by the column of the next token, so behind a text over several lines
some block collections may still be open, and their ends are delivered first.
-/

set_option autoImplicit false

namespace TreeLang.Yaml.Layout

open Style (spaces)
open TokenStream (Stands Nears Delivers Pushes Pending Opens Uncommented maxDepth keyReach)

/-! ## On one line -/

/-- What may follow a layout inside a flow collection. -/
def Closes (rest : List Char) : Prop :=
  rest.headD endChar = ',' ∨ rest.headD endChar = ']' ∨ rest.headD endChar = '\x7d'

theorem Closes.spec {rest : List Char} (h : Closes rest) :
    Scalar.stopsPlain true rest = true ∧ isGap (rest.headD endChar) = false ∧
      rest.headD endChar ≠ '\'' ∧ Uncommented rest := by
  cases rest with
  | nil => rcases h with h | h | h <;> exact absurd h (by decide)
  | cons c rest =>
    have hquote : c ≠ '\'' → (c :: rest).headD endChar ≠ '\'' := id
    rcases h with h | h | h <;>
      (obtain rfl : c = _ := h
       exact ⟨rfl, rfl, hquote (by decide), TokenStream.uncommented_cons rfl (by decide)⟩)

/-- Inside `level` flow collections the text of a layout on one line is read as its tokens. -/
def LineReads (b : Prop) (N level : Nat) (d : Layout) : Prop :=
  ∀ ⦃s : TokenStream⦄ ⦃i : Int⦄ ⦃is : List Int⦄ ⦃m : Mark⦄ ⦃allowed : Bool⦄ ⦃indent n : Nat⦄
    ⦃rest : List Char⦄ ⦃ks : List TokenKind⦄, 0 < indent →
    Nears N s (i :: is) level (line indent d ++ rest) m allowed →
    (level = 0 → i < (m.column : Int)) → (0 < level → 0 < m.column ∧ Closes rest) →
    Uncommented rest →
    (∀ {s' : TokenStream} {m' : Mark}, 0 < m'.column → Stands N s' (i :: is) level false rest m' →
      Delivers b N n s' [] ks) →
    Delivers b N ((line indent d).length + n) s [] (d.kinds ++ ks)

section Line

variable {b : Prop} {N level : Nat}

/-- The form of a text between quotes. -/
theorem exists_quoted {style : Style} {cs : List Char} {inFlow : Bool} {indent : Nat} (hindent : 0 < indent)
    (hfits : Holds inFlow style cs) (hplain : style ≠ .plain) (hliteral : style ≠ .literal) :
    ∃ quote W, style.write indent cs = quote :: (W ++ [quote]) ∧ (quote = '\'' ∨ quote = '"') ∧
      Scalar.Content quote W cs := by
  cases style with
  | plain => exact absurd rfl hplain
  | single => exact ⟨_, _, rfl, Or.inl rfl, Scalar.content_single hindent cs hfits⟩
  | double => exact ⟨_, _, rfl, Or.inr rfl, Scalar.content_doubled cs⟩
  | literal => exact absurd rfl hliteral

/-- A scalar between quotes is read, inside flow collections and outside. -/
theorem delivers_quoted {s : TokenStream} {i : Int} {is : List Int} {m : Mark} {allowed inFlow : Bool}
    {indent n : Nat} {rest cs : List Char} {ks : List TokenKind} {style : Style} (hindent : 0 < indent)
    (hfits : Holds inFlow style cs) (hplain : style ≠ .plain) (hliteral : style ≠ .literal)
    (h : Nears N s (i :: is) level (style.write indent cs ++ rest) m allowed)
    (hplace : level = 0 → i < (m.column : Int)) (hquote : rest.headD endChar ≠ '\'')
    (hno : Uncommented rest)
    (hgo : ∀ {s' : TokenStream} {m' : Mark}, 0 < m'.column → Stands N s' (i :: is) level false rest m' →
      Delivers b N n s' [] ks) :
    Delivers b N ((style.write indent cs).length + n) s [] ((scalar style cs).kinds ++ ks) := by
  obtain ⟨quote, W, hform, hq, hcontent⟩ := exists_quoted hindent hfits hplain hliteral
  rw [hform, List.cons_append, List.append_assoc, List.singleton_append] at h
  rw [kinds, beq_eq_false_iff_ne.2 hplain]
  refine h.delivers _ (n := n) (by rw [hform, List.length_cons]; omega) fun s' h' => ?_
  refine (TokenStream.leads_readToken_quoted hq (fun _ => hquote) hcontent h' hplace hno).mono
    fun _ s'' hs'' => ?_
  obtain ⟨⟨m', hcol, hs''⟩, hpush⟩ := hs''
  exact ⟨hpush, hgo hcol hs''⟩

theorem lineReads_scalar {style : Style} {cs : List Char} (hlevel : 0 < level)
    (hfits : Holds true style cs) : LineReads b N level (.scalar style cs) := by
  intro s i is m allowed indent n rest ks hindent h hplace hrest hno hgo
  obtain ⟨hpos, hclose⟩ := hrest hlevel
  obtain ⟨hstop, hgap, hquote, -⟩ := hclose.spec
  have hflow : decide (0 < level) = true := decide_eq_true hlevel
  rw [line] at h ⊢
  by_cases hplain : style = .plain
  · subst hplain
    obtain ⟨hne, hrule⟩ := hfits
    have hlen : 0 < cs.length := List.length_pos_iff.2 hne
    refine h.delivers _ (n := n) (by show n < cs.length + n; omega) fun s' h' => ?_
    refine (TokenStream.leads_readToken_word hne (hflow ▸ hrule) h' hplace (Or.inl hpos) (hflow ▸ hstop)
      hgap hno).mono fun _ s'' hs'' => ?_
    obtain ⟨⟨m', hcol, hs''⟩, htaken, t, hqueue, hkind, -⟩ := hs''
    refine ⟨⟨htaken, [t], hqueue, ?_⟩, hgo (by omega) hs''⟩
    rw [List.map_singleton, hkind]
    rfl
  · have hliteral : style ≠ .literal := by
      rintro rfl
      exact absurd hfits.1 (by decide)
    exact delivers_quoted hindent hfits hplain hliteral h hplace hquote hno hgo

/-- The items of a list are read up to the bracket that ends it. -/
theorem delivers_lineItems {i : Int} {is : List Int} {indent n : Nat} {rest : List Char}
    {ks : List TokenKind} (hindent : 0 < indent) (hno : Uncommented rest)
    (hgo : ∀ {s' : TokenStream} {m' : Mark}, 0 < m'.column → Stands N s' (i :: is) level false rest m' →
      Delivers b N n s' [] ks) (ds : List Layout) :
    ∀ {s : TokenStream} {m : Mark} {first allowed : Bool}, FitsAll (level + 1) ds →
      (∀ d ∈ ds, LineReads b N (level + 1) d) → 0 < m.column →
      Stands N s (i :: is) (level + 1) allowed (lineItems indent first ds ++ ']' :: rest) m →
      Delivers b N ((lineItems indent first ds).length + 1 + n) s []
        (itemsKinds true first ds ++ .flowSequenceEnd :: ks) := by
  induction ds with
  | nil =>
    intro s m first allowed _ _ hpos h
    have hnears : Nears N s (i :: is) (level + 1) (']' :: rest) m allowed := .line (k := 0) h
    refine hnears.delivers [_] (n := n) (by simp only [lineItems, List.length_nil]; omega) fun s' h' => ?_
    refine (TokenStream.leads_readToken_flowEnd (Or.inl ⟨rfl, rfl⟩) h' hno).mono fun _ s'' hs'' => ?_
    obtain ⟨⟨m', hcol, hs''⟩, hpush⟩ := hs''
    exact ⟨hpush, hgo (by omega) hs''⟩
  | cons d ds ih =>
    intro s m first allowed hfits hreads hpos h
    obtain ⟨hd, hds⟩ := (by rwa [FitsAll] at hfits : _ ∧ _)
    have hclose : Closes (lineItems indent false ds ++ ']' :: rest) := by
      cases ds with
      | nil => exact Or.inr (Or.inl rfl)
      | cons d ds => exact Or.inl rfl
    -- what is read once the stream has come to the item itself
    have hitem : ∀ {s : TokenStream} {m : Mark} {allowed : Bool}, 0 < m.column →
        Nears N s (i :: is) (level + 1)
          (line indent d ++ (lineItems indent false ds ++ ']' :: rest)) m allowed →
        Delivers b N ((line indent d).length + ((lineItems indent false ds).length + 1 + n)) s []
          (d.kinds ++ (itemsKinds true false ds ++ .flowSequenceEnd :: ks)) := by
      intro s m allowed hpos h
      exact hreads d List.mem_cons_self hindent h (fun hl => absurd hl (Nat.succ_ne_zero _))
        (fun _ => ⟨hpos, hclose⟩) hclose.spec.2.2.2
        fun hpos' hs' => ih hds (fun d' hd' => hreads d' (List.mem_cons_of_mem _ hd')) hpos' hs'
    rw [itemsKinds, lineItems] at *
    cases first with
    | true =>
      rw [if_pos rfl, List.nil_append, List.append_assoc] at h
      rw [itemMark_first, if_pos rfl, List.nil_append, List.nil_append, List.append_assoc,
        List.length_append, Nat.add_assoc, Nat.add_assoc, ← Nat.add_assoc _ 1 n]
      exact hitem hpos (.line (k := 0) h)
    | false =>
      rw [if_neg Bool.false_ne_true, List.append_assoc, List.append_assoc, List.cons_append,
        List.singleton_append] at h
      rw [itemMark_comma, if_neg Bool.false_ne_true, List.append_assoc, List.append_assoc,
        List.length_append, List.length_append]
      have hnears : Nears N s (i :: is) (level + 1) _ m allowed := .line (k := 0) h
      refine hnears.delivers [_] (n := (line indent d).length + ((lineItems indent false ds).length + 1 + n))
        (by simp only [List.length_cons, List.length_nil]; omega) fun s' h' => ?_
      have hspace := TokenStream.uncommented_space
        (opens_line hd indent (lineItems indent false ds ++ ']' :: rest)).uncommented
      -- the comma is read, and the space behind it leads to the item
      refine (TokenStream.leads_readToken_comma h' hspace).mono fun _ s'' hs'' => ?_
      obtain ⟨⟨m', hcol, hs''⟩, hpush⟩ := hs''
      have hnext : Nears N s'' (i :: is) (level + 1) _ (m'.over (spaces 1)) true := .line (k := 1) hs''
      refine ⟨hpush, hitem ?_ hnext⟩
      rw [Scalar.Mark.column_over_spaces]
      omega

theorem lineReads_list {items : List Layout} (hdepth : level < maxDepth) (hfits : FitsAll (level + 1) items)
    (hreads : ∀ d ∈ items, LineReads b N (level + 1) d) : LineReads b N level (.list true items) := by
  intro s i is m allowed indent n rest ks hindent h hplace hrest hno hgo
  rw [line, List.cons_append, List.append_assoc, List.singleton_append] at h
  rw [line, kinds, List.cons_append, List.append_assoc]
  refine h.delivers [_] (n := (lineItems (indent + 2) true items).length + 1 + n)
    (by simp only [List.length_cons, List.length_append, List.length_nil]; omega) fun s' h' => ?_
  have hinside : Uncommented (lineItems (indent + 2) true items ++ ']' :: rest) := by
    cases items with
    | nil => exact TokenStream.uncommented_cons rfl (by decide)
    | cons d ds =>
      obtain ⟨hd, -⟩ := (by rwa [FitsAll] at hfits : _ ∧ _)
      rw [lineItems, if_pos rfl, List.nil_append, List.append_assoc]
      exact (opens_line hd _ _).uncommented
  refine (TokenStream.leads_readToken_flowStart (Or.inl ⟨rfl, rfl⟩) h' hplace hdepth hinside).mono
    fun _ s'' hs'' => ?_
  obtain ⟨⟨m', hcol, hs''⟩, hpush⟩ := hs''
  exact ⟨hpush, delivers_lineItems (by omega) hno hgo items hfits hreads (by omega) hs''⟩

/-- An entry on one line is read if its operand is. Its key is read as a plain scalar first, and at
the colon the token of the key is set in front of it. Behind the operand stands the brace that ends
the entry. -/
theorem lineReads_entry {key : List Char} {d : Layout} (hdepth : level < maxDepth) (hkey : KeyRule key)
    (hfits : d.Fits (level + 1)) (hreads : LineReads b N (level + 1) d) :
    LineReads b N level (.entry true key d) := by
  intro s i is m allowed indent n rest ks hindent h hplace hrest hno hgo
  have hlen : 0 < key.length := List.length_pos_iff.2 hkey.ne
  have hlevel : decide (0 < level + 1) = true := decide_eq_true (Nat.succ_pos level)
  rw [line, List.cons_append, List.append_assoc, List.cons_append, List.cons_append, List.append_assoc,
    List.singleton_append] at h
  -- the tokens in the order in which they are delivered: the key comes before its scalar
  have hks : (entry true key d).kinds ++ ks = [TokenKind.flowMappingStart] ++
      ([TokenKind.key] ++ TokenKind.scalar (Utf8.encode key) true :: [TokenKind.value] ++
        (d.kinds ++ TokenKind.flowMappingEnd :: ks)) := by
    rw [kinds]
    simp [entryStart, entryEnd]
  have hspace := TokenStream.uncommented_space
    (opens_line hfits (indent + 2) ('\x7d' :: rest)).uncommented
  rw [line, hks]
  refine h.delivers [_] (n := key.length + (1 + ((line (indent + 2) d).length + (1 + n))))
    (by simp only [List.length_cons, List.length_append, List.length_nil]; omega) fun s₁ h₁ => ?_
  have hopen := TokenStream.opens_plain hkey.ne (hkey.plain true)
    (':' :: ' ' :: (line (indent + 2) d ++ '\x7d' :: rest))
  refine (TokenStream.leads_readToken_flowStart (Or.inr ⟨rfl, rfl⟩) h₁ hplace hdepth
    hopen.uncommented).mono fun _ s₂ hs₂ => ?_
  obtain ⟨⟨m₂, hcol₂, hs₂⟩, hpush₂⟩ := hs₂
  refine ⟨hpush₂, ?_⟩
  have hword : Nears N s₂ (i :: is) (level + 1) _ m₂ true := .line (k := 0) hs₂
  refine hword.delivers_word (n := 1 + ((line (indent + 2) d).length + (1 + n))) (by omega) fun s₃ h₃ => ?_
  refine (TokenStream.leads_readToken_word hkey.ne (hkey.plain _) h₃
    (fun hl => absurd hl (Nat.succ_ne_zero _)) (Or.inl (by omega)) (by rw [hlevel]; rfl) rfl
    (TokenStream.uncommented_cons rfl (by decide))).mono fun _ s₄ hs₄ => ?_
  obtain ⟨⟨m₄, hcol₄, hs₄⟩, htaken, t, hqueue, hkind, hpending⟩ := hs₄
  obtain ⟨k, -, hpending⟩ := hpending rfl hkey.short
  refine ⟨htaken, t, hqueue, ?_⟩
  rw [← hkind]
  refine hs₄.delivers_colon hpending (n := (line (indent + 2) d).length + (1 + n)) (by omega)
    fun s₅ q h₅ hp₅ => ?_
  refine (TokenStream.leads_readToken_flowColon hp₅ h₅ hspace).mono fun _ s₆ hs₆ => ?_
  obtain ⟨⟨m₆, hcol₆, hs₆⟩, htaken₆, u, v, hqueue₆, hu, hv⟩ := hs₆
  refine ⟨htaken₆, [u], [v], hqueue₆, congrArg (fun k => [k]) hu, congrArg (fun k => [k]) hv, ?_⟩
  have hoperand : Nears N s₆ (i :: is) (level + 1) _ (m₆.over (spaces 1)) false := .line (k := 1) hs₆
  have hcol : (m₆.over (spaces 1)).column = m₆.column + 1 := Scalar.Mark.column_over_spaces _ _
  refine hreads (by omega) hoperand (fun hl => absurd hl (Nat.succ_ne_zero _))
    (fun _ => ⟨by omega, Or.inr (Or.inr rfl)⟩) (TokenStream.uncommented_cons rfl (by decide))
    fun {s₇ m₇} hpos₇ hs₇ => ?_
  have hbrace : Nears N s₇ (i :: is) (level + 1) _ m₇ false := .line (k := 0) hs₇
  refine hbrace.delivers [_] (n := n) (by omega) fun s₈ h₈ => ?_
  refine (TokenStream.leads_readToken_flowEnd (Or.inr ⟨rfl, rfl⟩) h₈ hno).mono fun _ s₉ hs₉ => ?_
  obtain ⟨⟨m₉, hcol₉, hs₉⟩, hpush₉⟩ := hs₉
  exact ⟨hpush₉, hgo (by omega) hs₉⟩

mutual

/-- A layout that fits on one line is read as its tokens. -/
theorem lineReads : (d : Layout) → ∀ {level : Nat}, 0 < level ∨ (∀ style cs, d ≠ .scalar style cs) →
    d.isBlock = false → d.Fits level → LineReads b N level d
  | .scalar style cs, level, hlevel, _, hfits => by
    have hpos : 0 < level := hlevel.resolve_right fun hne => hne style cs rfl
    rw [Fits, decide_eq_true hpos] at hfits
    exact lineReads_scalar hpos hfits
  | .list true items, level, _, _, hfits => by
    obtain ⟨hdepth, hitems⟩ := (by rwa [Fits] at hfits : _ ∧ _)
    exact lineReads_list hdepth hitems (lineReadsAll items hitems)
  | .list false _, _, _, hblock, _ => by cases hblock
  | .entry true key d, level, _, _, hfits => by
    obtain ⟨hdepth, hkey, hd⟩ := (by rwa [Fits] at hfits : _ ∧ _ ∧ _)
    exact lineReads_entry hdepth hkey hd (lineReads d (Or.inl (Nat.succ_pos level)) (isBlock_eq hd) hd)
  | .entry false _ _, _, _, hblock, _ => by cases hblock

theorem lineReadsAll : (ds : List Layout) → ∀ {level : Nat}, FitsAll (level + 1) ds →
    ∀ d ∈ ds, LineReads b N (level + 1) d
  | [], _, _ => fun _ hd => absurd hd List.not_mem_nil
  | d :: ds, level, hfits => by
    obtain ⟨hd, hds⟩ := (by rwa [FitsAll] at hfits : _ ∧ _)
    exact List.forall_mem_cons.2
      ⟨lineReads d (Or.inl (Nat.succ_pos level)) (isBlock_eq hd) hd, lineReadsAll ds hds⟩

end

end Line

/-! ## Over several lines -/

/-- Behind a layout inside the block collections `i :: is` the kinds `ks` are delivered, where
`rest` starts at the column `k`. Collections right of `i` may still be open, and end first. -/
def Behind (b : Prop) (N n : Nat) (i : Int) (is : List Int) (k : Nat) (rest : List Char)
    (ks : List TokenKind) : Prop :=
  ∀ ⦃s : TokenStream⦄ ⦃m : Mark⦄ (ls : List Int), (∀ l ∈ ls, i < l) → m.column = k →
    Nears N s (ls ++ i :: is) 0 rest m true →
    Delivers b N n s [] (List.replicate ls.length .blockEnd ++ ks)

/-- The text of a layout over several lines is read as the tokens of what is read back of it. The
layout stands inside a block collection of the indentation `i`, and the next token at the column
`k`, not to the right of that. -/
def LinesRead (b : Prop) (N : Nat) (d : Layout) : Prop :=
  ∀ ⦃s : TokenStream⦄ ⦃i : Int⦄ ⦃is : List Int⦄ ⦃m : Mark⦄ ⦃allowed : Bool⦄ ⦃indent room k n : Nat⦄
    ⦃rest : List Char⦄ ⦃ks : List TokenKind⦄, 0 ≤ i → (indent : Int) = i + 2 →
    (i :: is).length + room = maxDepth + 1 → (d.reread room ≠ d → b) →
    Nears N s (i :: is) 0 (lines indent d ++ (spaces k ++ rest)) m allowed → i < (m.column : Int) →
    (d.isBlock = true → m.column = indent ∧ allowed = true) → (k : Int) ≤ i → Opens rest →
    Behind b N n i is k rest ks →
    Delivers b N ((lines indent d).length + n) s [] ((d.reread room).kinds ++ ks)

section Lines

variable {b : Prop} {N : Nat}

/-- Behind the last layout of a block collection, that collection is one of those still open. -/
theorem Behind.inside {n k column : Nat} {i : Int} {is : List Int} {rest : List Char}
    {ks : List TokenKind} (h : Behind b N n i is k rest ks) (hi : i < (column : Int)) :
    Behind b N n (column : Int) (i :: is) k rest (.blockEnd :: ks) := by
  intro s m ls hls hcol hs
  have hstack : ls ++ (column : Int) :: i :: is = (ls ++ [(column : Int)]) ++ i :: is := by
    rw [List.append_assoc]
    rfl
  have hends : List.replicate ls.length TokenKind.blockEnd ++ .blockEnd :: ks =
      List.replicate (ls ++ [(column : Int)]).length .blockEnd ++ ks := by
    rw [List.length_append, List.length_singleton, List.replicate_succ', List.append_assoc]
    rfl
  rw [hends]
  refine h (ls ++ [(column : Int)]) (fun l hl => ?_) hcol (hstack ▸ hs)
  rcases List.mem_append.1 hl with hl | hl
  · have := hls l hl
    omega
  · rw [List.mem_singleton.1 hl]
    exact hi

/-- Behind the end of a line the stream comes to the next token. -/
theorem nears_fresh {s : TokenStream} {stack : List Int} {allowed : Bool} {rest : List Char} {m : Mark}
    {k : Nat} (h : Stands N s stack 0 allowed ('\n' :: (spaces k ++ rest)) m) :
    ∃ m', m'.column = k ∧ Nears N s stack 0 rest m' true := by
  refine ⟨_, ?_, .fresh rfl h⟩
  rw [Scalar.Mark.column_over_spaces]
  exact Nat.zero_add k

/-- A literal block is read, with what is lost of it. -/
theorem linesRead_literal {cs : List Char} (hne : cs ≠ []) : LinesRead b N (.scalar .literal cs) := by
  intro s i is m allowed indent room k n rest ks hi hindent hroom hb h hplace _ hk hopen hgo
  have hclosing : Scalar.closing (Style.literalForm indent cs) = Scalar.closing cs :=
    closing_literalForm hne
  -- a text that starts with a tab is refused, which `b` allows then
  have htab : cs.head? = some '\t' → b := by
    intro hhead
    refine hb ?_
    rw [reread, if_pos hhead]
    intro heq
    cases heq
  rw [lines_leaf rfl, line, Style.write, hclosing, List.append_assoc] at h
  rw [lines_leaf rfl, line, Style.write]
  have hlen : 0 < (Style.literalForm indent cs).length := Nat.succ_pos _
  refine h.delivers _ (n := n) (by rw [List.length_append]; omega) fun s' h' => ?_
  refine (TokenStream.leads_readToken_literal hi hindent (by omega) hne hopen htab h' hplace
    hopen.uncommented).mono fun _ s'' hs'' => ?_
  obtain ⟨hno, ⟨m', hcol, hs''⟩, hpush⟩ := hs''
  rw [reread, if_neg hno, kinds]
  exact ⟨hpush, hgo [] (List.forall_mem_nil _) hcol (.line (k := 0) hs'')⟩

/-- A scalar on lines of its own is read. A plain one goes on over the end of the line to see what
follows, and a quoted one does not. -/
theorem linesRead_scalar {style : Style} {cs : List Char} (hfits : Holds false style cs) :
    LinesRead b N (.scalar style cs) := by
  by_cases hliteral : style = .literal
  · subst hliteral
    exact linesRead_literal hfits.2.1
  intro s i is m allowed indent room k n rest ks hi hindent hroom hb h hplace _ hk hopen hgo
  have hfits' : (scalar style cs).Fits 0 := by rwa [Fits]
  have hclosing : Scalar.closing (line indent (.scalar style cs)) = ['\n'] :=
    closing_line hfits' fun cs' heq => hliteral (by cases heq; rfl)
  rw [reread_scalar room cs hliteral]
  rw [lines_leaf rfl, hclosing, line, List.append_assoc, List.singleton_append] at h
  rw [lines_leaf rfl, hclosing, line, List.length_append, Nat.add_assoc]
  by_cases hplain : style = .plain
  · subst hplain
    obtain ⟨hne, hrule⟩ := hfits
    refine h.delivers _ (n := n) (by rw [List.length_singleton]; omega) fun s' h' => ?_
    refine (TokenStream.leads_readToken_line hne hrule h' hplace (by omega) hk hopen
      hopen.uncommented).mono fun _ s'' hs'' => ?_
    obtain ⟨⟨m', hcol, hs''⟩, hpush⟩ := hs''
    exact ⟨hpush, hgo [] (List.forall_mem_nil _) hcol (.line (k := 0) hs'')⟩
  · refine delivers_quoted (by omega) hfits hplain hliteral h (fun _ => hplace)
      (by exact (by decide : '\n' ≠ '\''))
      (TokenStream.uncommented_cons rfl (by decide)) fun {s' m'} _ hs' => ?_
    obtain ⟨m'', hcol, hnext⟩ := nears_fresh hs'
    exact (hgo [] (List.forall_mem_nil _) hcol hnext).mono (by omega)

/-- A collection on one line, inside a block collection or outside of all. -/
theorem delivers_flow {s : TokenStream} {i : Int} {is : List Int} {m : Mark} {allowed : Bool}
    {indent k n : Nat} {rest : List Char} {ks : List TokenKind} {d : Layout} (hblock : d.isBlock = false)
    (hscalar : ∀ style cs, d ≠ .scalar style cs) (hfits : d.Fits 0) (hindent : 0 < indent) (room : Nat)
    (h : Nears N s (i :: is) 0 (lines indent d ++ (spaces k ++ rest)) m allowed)
    (hplace : i < (m.column : Int)) (hgo : Behind b N n i is k rest ks) :
    Delivers b N ((lines indent d).length + n) s [] ((d.reread room).kinds ++ ks) := by
  have hclosing : Scalar.closing (line indent d) = ['\n'] := closing_line hfits fun cs => hscalar _ cs
  rw [lines_leaf hblock, hclosing, List.append_assoc, List.singleton_append] at h
  rw [lines_leaf hblock, hclosing, List.length_append, Nat.add_assoc, reread_flow room hblock hscalar]
  refine lineReads d (Or.inr hscalar) hblock hfits hindent h (fun _ => hplace)
    (fun hl => absurd hl (Nat.lt_irrefl 0)) (TokenStream.uncommented_cons rfl (by decide))
    fun {s' m'} _ hs' => ?_
  obtain ⟨m'', hcol, hnext⟩ := nears_fresh hs'
  exact (hgo [] (List.forall_mem_nil _) hcol hnext).mono (by omega)

theorem linesRead_flow {d : Layout} (hblock : d.isBlock = false) (hscalar : ∀ style cs, d ≠ .scalar style cs)
    (hfits : d.Fits 0) : LinesRead b N d := by
  intro s i is m allowed indent room k n rest ks hi hindent hroom hb h hplace _ hk hopen hgo
  exact delivers_flow hblock hscalar hfits (by omega) room h hplace hgo

/-- The items of a list, where the stream stands behind the dash of the first one. -/
theorem delivers_linesItems {i : Int} {is : List Int} {column room k n : Nat} {rest : List Char}
    {ks : List TokenKind} (hi : i < (column : Int)) (hroom : (i :: is).length + (room + 1) = maxDepth + 1)
    (hk : (k : Int) ≤ i) (hopen : Opens rest) (hgo : Behind b N n i is k rest ks) (ds : List Layout) :
    ∀ {s : TokenStream} {m : Mark} {d : Layout}, LinesRead b N d → (∀ d ∈ ds, LinesRead b N d) →
      (d.reread room ≠ d → b) → (rereadAll room ds ≠ ds → b) → m.column = column + 1 →
      Stands N s ((column : Int) :: i :: is) 0 true (' ' :: (lines (column + 2) d ++
        (linesItems column false ds ++ (spaces k ++ rest)))) m →
      Delivers b N ((lines (column + 2) d).length + ((linesItems column false ds).length + n)) s []
        ((d.reread room).kinds ++ (itemsKinds false false (rereadAll room ds) ++ .blockEnd :: ks)) := by
  have hlength : ((column : Int) :: i :: is).length + room = maxDepth + 1 := by
    rw [List.length_cons]
    omega
  induction ds with
  | nil =>
    intro s m d hread _ hb _ hcol h
    have hnears : Nears N s ((column : Int) :: i :: is) 0 _ (m.over (spaces 1)) true := .line (k := 1) h
    have hcolumn : (m.over (spaces 1)).column = column + 2 := by
      rw [Scalar.Mark.column_over_spaces]
      omega
    rw [linesItems, List.nil_append] at hnears
    rw [linesItems, List.length_nil, Nat.zero_add, rereadAll, itemsKinds, List.nil_append]
    exact hread (by omega) (by omega) hlength hb hnears (by omega) (fun _ => ⟨hcolumn, rfl⟩) (by omega) hopen
      (hgo.inside hi)
  | cons d' ds ih =>
    intro s m d hread hreads hb hbs hcol h
    have hsame : rereadAll room (d' :: ds) = d' :: ds → d'.reread room = d' ∧ rereadAll room ds = ds := by
      rw [rereadAll]
      exact List.cons.inj
    have hb' : d'.reread room ≠ d' → b := fun hne => hbs fun heq => hne (hsame heq).1
    have hbs' : rereadAll room ds ≠ ds → b := fun hne => hbs fun heq => hne (hsame heq).2
    have hnears : Nears N s ((column : Int) :: i :: is) 0 _ (m.over (spaces 1)) true := .line (k := 1) h
    have hcolumn : (m.over (spaces 1)).column = column + 2 := by
      rw [Scalar.Mark.column_over_spaces]
      omega
    rw [linesItems, if_neg Bool.false_ne_true, List.append_assoc, List.cons_append, List.cons_append,
      List.append_assoc] at hnears
    rw [linesItems, if_neg Bool.false_ne_true, rereadAll, itemsKinds, itemMark_dash]
    refine hread (by omega) (by omega) hlength hb hnears (by omega) (fun _ => ⟨hcolumn, rfl⟩) (by omega)
      ⟨rfl, rfl, rfl⟩ fun {s' m'} ls hls hcol' hs' => ?_
    subst hcol'
    -- collections inside the item that are still open end before the next dash
    have hks : List.replicate ls.length TokenKind.blockEnd ++ ([TokenKind.blockEntry] ++
        ((d'.reread room).kinds ++ itemsKinds false false (rereadAll room ds)) ++
          TokenKind.blockEnd :: ks) =
        (List.replicate ls.length TokenKind.blockEnd ++ [TokenKind.blockEntry]) ++
          ((d'.reread room).kinds ++ (itemsKinds false false (rereadAll room ds) ++
            TokenKind.blockEnd :: ks)) := by
      simp
    rw [hks]
    refine hs'.delivers _ (n := (lines (m'.column + 2) d').length +
      ((linesItems m'.column false ds).length + n))
      (by simp only [List.length_append, List.length_cons]; omega) fun s₁ h₁ => ?_
    refine (TokenStream.leads_readToken_nextDash h₁ hls).mono fun _ s₂ hs₂ => ?_
    obtain ⟨⟨m₂, hcol₂, hs₂⟩, hpush⟩ := hs₂
    exact ⟨hpush, ih (hreads d' List.mem_cons_self) (fun d hd => hreads d (List.mem_cons_of_mem _ hd))
      hb' hbs' hcol₂ hs₂⟩

/-- A list over several lines is read if its items are. If one more block collection is too many,
the first dash is refused. -/
theorem linesRead_list {items : List Layout} (hne : items ≠ []) (hreads : ∀ d ∈ items, LinesRead b N d) :
    LinesRead b N (.list false items) := by
  intro s i is m allowed indent room k n rest ks hi hindent hroom hb h hplace hblock hk hopen hgo
  obtain ⟨rfl, rfl⟩ := hblock rfl
  obtain ⟨d, ds, rfl⟩ := List.exists_cons_of_ne_nil hne
  rw [lines, linesItems, if_pos rfl, List.nil_append, List.cons_append, List.cons_append,
    List.append_assoc] at h
  rw [lines, linesItems, if_pos rfl, List.nil_append]
  cases room with
  | zero =>
    have hspoiled : reread 0 (.list false (d :: ds)) ≠ .list false (d :: ds) := by
      rw [reread]
      exact Layout.noConfusion
    refine h.delivers _ (n := n) (by rw [List.length_cons]; omega) fun s' h' => ?_
    refine (TokenStream.leads_readToken_firstDash h' hplace (Or.inl (hb hspoiled))).mono fun _ s'' hs'' => ?_
    exact absurd hs''.1 (by omega)
  | succ room =>
    have hkeep : reread (room + 1) (.list false (d :: ds)) =
        .list false (d.reread room :: rereadAll room ds) := by rw [reread, rereadAll]
    have hsame : reread (room + 1) (.list false (d :: ds)) = .list false (d :: ds) →
        d.reread room = d ∧ rereadAll room ds = ds := by
      rw [hkeep]
      exact fun heq => List.cons.inj (Layout.list.inj heq).2
    have hb₁ : d.reread room ≠ d → b := fun hne => hb fun heq => hne (hsame heq).1
    have hb₂ : rereadAll room ds ≠ ds → b := fun hne => hb fun heq => hne (hsame heq).2
    have hks : (reread (room + 1) (.list false (d :: ds))).kinds ++ ks =
        [TokenKind.blockSequenceStart, TokenKind.blockEntry] ++ ((d.reread room).kinds ++
          (itemsKinds false false (rereadAll room ds) ++ TokenKind.blockEnd :: ks)) := by
      rw [hkeep, kinds, itemsKinds]
      simp [listStart, listEnd, itemMark]
    rw [hks]
    refine h.delivers _ (n := (lines (m.column + 2) d).length + ((linesItems m.column false ds).length + n))
      (by simp only [List.length_append, List.length_cons]; omega) fun s' h' => ?_
    refine (TokenStream.leads_readToken_firstDash h' hplace
      (Or.inr (by rw [List.length_cons] at hroom ⊢; omega))).mono fun _ s'' hs'' => ?_
    obtain ⟨-, ⟨m', hcol, hs''⟩, hpush⟩ := hs''
    exact ⟨hpush, delivers_linesItems hplace hroom hk hopen hgo ds (hreads d List.mem_cons_self)
      (fun d' hd' => hreads d' (List.mem_cons_of_mem _ hd')) hb₁ hb₂ hcol hs''⟩

/-- A text that does not start like a marker does not with a line end or a colon behind it
either. -/
theorem startsLikeMarker_append {cs : List Char} (h : Style.startsLikeMarker cs = false) {c : Char}
    (hc : c ≠ '-' ∧ c ≠ '.') (rest : List Char) : Style.startsLikeMarker (cs ++ c :: rest) = false := by
  rw [Cursor.startsLikeMarker_eq] at h ⊢
  match cs with
  | [] => simp [hc]
  | [a] => simp [hc]
  | [a, a'] => simp [hc]
  | _ :: _ :: _ :: _ => exact h

/-- Behind the colon of a key there is a gap, and no comment in it. -/
theorem gap_spec {d : Layout} (hfits : d.Fits 0) (indent : Nat) (rest : List Char) :
    isGap ((gap indent d ++ (lines indent d ++ rest)).headD endChar) = true ∧
      Uncommented (gap indent d ++ (lines indent d ++ rest)) := by
  rw [gap]
  cases d.isBlock with
  | true => exact ⟨rfl, TokenStream.uncommented_cons rfl (by decide)⟩
  | false => exact ⟨rfl, TokenStream.uncommented_space (opens_lines hfits _ _).uncommented⟩

/-- A key ends at a colon with a gap behind it. -/
theorem stopsPlain_colon {rest : List Char} (h : isGap (rest.headD endChar) = true) (inFlow : Bool) :
    Scalar.stopsPlain inFlow (':' :: rest) = true := by
  cases rest with
  | nil => cases inFlow <;> rfl
  | cons c rest =>
    rw [List.headD_cons] at h
    unfold Scalar.stopsPlain Scalar.endsPlain
    simp [h]

/-- The operand of an entry stands on the line of the key, or on a line of its own. -/
theorem nears_operand {s : TokenStream} {stack : List Int} {column : Nat} {rest : List Char} {m : Mark}
    {d : Layout} (hcol : column < m.column)
    (h : Stands N s stack 0 false (gap (column + 2) d ++ (lines (column + 2) d ++ rest)) m) :
    ∃ m' allowed, column < m'.column ∧ (d.isBlock = true → m'.column = column + 2 ∧ allowed = true) ∧
      Nears N s stack 0 (lines (column + 2) d ++ rest) m' allowed := by
  rw [gap] at h
  cases hblock : d.isBlock with
  | true =>
    rw [hblock, if_pos rfl, List.cons_append] at h
    obtain ⟨m', hcol', hnext⟩ := nears_fresh h
    exact ⟨m', true, by omega, fun _ => ⟨hcol', rfl⟩, hnext⟩
  | false =>
    rw [hblock, if_neg Bool.false_ne_true] at h
    refine ⟨m.over (spaces 1), false, ?_, fun h => absurd h Bool.false_ne_true, .line (k := 1) h⟩
    rw [Scalar.Mark.column_over_spaces]
    omega

/-- An entry over several lines, inside a block collection or outside of all. -/
theorem delivers_linesEntry {s : TokenStream} {i : Int} {is : List Int} {m : Mark} {room k n : Nat}
    {key rest : List Char} {d : Layout} {ks : List TokenKind} (hkey : KeyRule key) (hfits : d.Fits 0)
    (hread : LinesRead b N d) (hroom : (i :: is).length + room = maxDepth + 1)
    (hb : reread room (.entry false key d) ≠ .entry false key d → b)
    (h : Nears N s (i :: is) 0 (lines m.column (.entry false key d) ++ (spaces k ++ rest)) m true)
    (hplace : i < (m.column : Int)) (hk : k ≤ m.column) (hopen : Opens rest)
    (hgo : Behind b N n i is k rest ks) :
    Delivers b N ((lines m.column (.entry false key d)).length + n) s []
      ((reread room (.entry false key d)).kinds ++ ks) := by
  have hlen : 0 < key.length := List.length_pos_iff.2 hkey.ne
  obtain ⟨hgap, hno⟩ := gap_spec hfits (m.column + 2) (spaces k ++ rest)
  have htext : lines m.column (.entry false key d) ++ (spaces k ++ rest) =
      key ++ ':' :: (gap (m.column + 2) d ++ (lines (m.column + 2) d ++ (spaces k ++ rest))) := by
    rw [lines, List.append_assoc, List.cons_append, List.append_assoc]
  have hmarker := startsLikeMarker_append (hkey.plain false).marker (c := ':') (by decide)
    (gap (m.column + 2) d ++ (lines (m.column + 2) d ++ (spaces k ++ rest)))
  rw [htext] at h
  rw [lines]
  have hlength : n + 2 ≤ (key ++ ':' :: (gap (m.column + 2) d ++ lines (m.column + 2) d)).length + n := by
    simp only [List.length_append, List.length_cons]
    omega
  refine h.delivers_word (n := 1 + ((gap (m.column + 2) d ++ lines (m.column + 2) d).length + n))
    (by simp only [List.length_append, List.length_cons]; omega) fun s₁ h₁ => ?_
  refine (TokenStream.leads_readToken_word hkey.ne (hkey.plain _) h₁ (fun _ => hplace) (Or.inr hmarker)
    (stopsPlain_colon hgap _) rfl (TokenStream.uncommented_cons rfl (by decide))).mono fun _ s₂ hs₂ => ?_
  obtain ⟨⟨m₂, hcol₂, hs₂⟩, htaken, t, hqueue, hkind, hpending⟩ := hs₂
  obtain ⟨p, hcolumn, hpending⟩ := hpending rfl hkey.short
  refine ⟨htaken, t, hqueue, ?_⟩
  cases room with
  | zero =>
    have hspoiled : reread 0 (.entry false key d) ≠ .entry false key d := by
      rw [reread]
      exact Layout.noConfusion
    refine hs₂.delivers_never hpending (by omega) fun s₃ q h₃ hp₃ => ?_
    refine (TokenStream.leads_readToken_blockColon hp₃ hcolumn h₃ hgap hplace (by omega)
      (Or.inl (hb hspoiled)) hno).mono fun _ s₄ hs₄ => ?_
    exact absurd hs₄.1 (by omega)
  | succ room =>
    have hkeep : reread (room + 1) (.entry false key d) = .entry false key (d.reread room) := by rw [reread]
    have hb' : d.reread room ≠ d → b := fun hne => hb fun heq => hne (by
      rw [hkeep] at heq
      exact (Layout.entry.inj heq).2.2)
    have hks : (reread (room + 1) (.entry false key d)).kinds ++ ks =
        [TokenKind.blockMappingStart, TokenKind.key] ++
          TokenKind.scalar (Utf8.encode key) true :: [TokenKind.value] ++
            ((d.reread room).kinds ++ TokenKind.blockEnd :: ks) := by
      rw [hkeep, kinds]
      simp [entryStart, entryEnd]
    rw [hks, ← hkind]
    -- at the colon the tokens of the mapping and its key are set in front of the scalar
    refine hs₂.delivers_colon hpending
      (n := (lines (m.column + 2) d).length + n) (by rw [List.length_append]; omega) fun s₃ q h₃ hp₃ => ?_
    refine (TokenStream.leads_readToken_blockColon hp₃ hcolumn h₃ hgap hplace (by omega)
      (Or.inr (by rw [List.length_cons] at hroom ⊢; omega)) hno).mono fun _ s₄ hs₄ => ?_
    obtain ⟨-, ⟨m₄, hcol₄, hs₄⟩, htaken₄, u, v, w, hqueue₄, hu, hv, hw⟩ := hs₄
    refine ⟨htaken₄, [u, v], [w], hqueue₄, ?_, ?_, ?_⟩
    · simp only [List.map_cons, List.map_nil, hu, hv]
    · simp only [List.map_cons, List.map_nil, hw]
    · obtain ⟨m', allowed, hright, hstart, hnext⟩ := nears_operand (by omega) hs₄
      refine hread (by omega) (by omega) ?_ hb' hnext (by omega) hstart (by omega) hopen (hgo.inside hplace)
      rw [List.length_cons]
      omega

theorem linesRead_entry {key : List Char} {d : Layout} (hkey : KeyRule key) (hfits : d.Fits 0)
    (hread : LinesRead b N d) : LinesRead b N (.entry false key d) := by
  intro s i is m allowed indent room k n rest ks hi hindent hroom hb h hplace hblock hk hopen hgo
  obtain ⟨rfl, rfl⟩ := hblock rfl
  exact delivers_linesEntry hkey hfits hread hroom hb h hplace (by omega) hopen hgo

mutual

/-- A layout that fits is read as the tokens of what is read back of it. -/
theorem linesRead : (d : Layout) → d.Fits 0 → LinesRead b N d
  | .scalar style cs, hfits => by
    rw [Fits] at hfits
    exact linesRead_scalar hfits
  | .list true items, hfits => linesRead_flow rfl nofun hfits
  | .list false items, hfits => by
    obtain ⟨-, hne, hitems⟩ := (by rwa [Fits] at hfits : _ ∧ _ ∧ _)
    exact linesRead_list hne (linesReadAll items hitems)
  | .entry true key d, hfits => linesRead_flow rfl nofun hfits
  | .entry false key d, hfits => by
    obtain ⟨-, hkey, hd⟩ := (by rwa [Fits] at hfits : _ ∧ _ ∧ _)
    exact linesRead_entry hkey hd (linesRead d hd)

theorem linesReadAll : (ds : List Layout) → FitsAll 0 ds → ∀ d ∈ ds, LinesRead b N d
  | [], _ => fun _ hd => absurd hd List.not_mem_nil
  | d :: ds, hfits => by
    obtain ⟨hd, hds⟩ := (by rwa [FitsAll] at hfits : _ ∧ _)
    exact List.forall_mem_cons.2 ⟨linesRead d hd, linesReadAll ds hds⟩

end

end Lines

/-! ## Documents -/

section Documents

variable {b : Prop} {N : Nat}

/-- What follows a document: the end of the stream, or the dashes in front of the next one. -/
def EndsPage (rest : List Char) : Prop := rest = [] ∨ ∃ tail, rest = '-' :: '-' :: '-' :: '\n' :: tail

theorem EndsPage.opens {rest : List Char} (h : EndsPage rest) : Opens rest := by
  rcases h with rfl | ⟨tail, rfl⟩
  · exact ⟨rfl, rfl, rfl⟩
  · exact ⟨rfl, rfl, rfl⟩

/-- A plain scalar as a document: a line of dashes behind it is not taken for a part of it. -/
theorem delivers_plainPage {s : TokenStream} {m : Mark} {indent n : Nat} {cs rest : List Char}
    {ks : List TokenKind} (hfits : Holds false .plain cs)
    (h : Nears N s [-1] 0 (lines indent (.scalar .plain cs) ++ rest) m true) (hrest : EndsPage rest)
    (hgo : Behind b N n (-1) [] 0 rest ks) :
    Delivers b N ((lines indent (.scalar .plain cs)).length + n) s []
      ((reread maxDepth (.scalar .plain cs)).kinds ++ ks) := by
  obtain ⟨hne, hrule⟩ := hfits
  have hclosing : Scalar.closing cs = ['\n'] := Scalar.closing_word hrule.isBreak
  have hmarker := startsLikeMarker_append hrule.marker (c := '\n') (by decide) rest
  have hrest' : rest = [] ∨ Style.startsLikeMarker rest = true ∧ isGap (rest.getD 3 endChar) = true := by
    rcases hrest with rfl | ⟨tail, rfl⟩
    · exact Or.inl rfl
    · exact Or.inr ⟨rfl, rfl⟩
  rw [lines_leaf rfl, line, Style.write, hclosing, List.append_assoc, List.singleton_append] at h
  rw [lines_leaf rfl, line, Style.write, hclosing, reread_scalar _ _ (by decide)]
  refine h.delivers _ (n := n) (by rw [List.length_append, List.length_singleton]; omega) fun s' h' => ?_
  refine (TokenStream.leads_readToken_root hne hrule h' hmarker hrest' hrest.opens.uncommented).mono
    fun _ s'' hs'' => ?_
  obtain ⟨⟨m', hcol', hs''⟩, hpush⟩ := hs''
  exact ⟨hpush, hgo [] (List.forall_mem_nil _) hcol' (.line (k := 0) hs'')⟩

/-- A document is read up to the end of the stream or to the dashes in front of the next one. -/
theorem delivers_page {s : TokenStream} {m : Mark} {n : Nat} {rest : List Char} {d : Layout}
    {ks : List TokenKind} (hfits : d.Fits 0) (hroot : d.IsRoot) (hb : d.reread maxDepth ≠ d → b)
    (h : Nears N s [-1] 0 (page d ++ rest) m true) (hcol : m.column = 0) (hrest : EndsPage rest)
    (hgo : Behind b N n (-1) [] 0 rest ks) :
    Delivers b N ((page d).length + n) s [] ((d.reread maxDepth).kinds ++ ks) := by
  cases hblock : d.isBlock with
  | true =>
    unfold page at h ⊢
    -- an entry over several lines is the only root of that kind
    rw [hblock, if_pos rfl] at h ⊢
    cases d with
    | scalar style cs => cases hblock
    | list flow items =>
      cases hroot
      cases hblock
    | entry flow key d =>
      cases flow with
      | true => cases hblock
      | false =>
        obtain ⟨-, hkey, hd⟩ := (by rwa [Fits] at hfits : _ ∧ _ ∧ _)
        have h' : Nears N s [-1] 0 (lines m.column (.entry false key d) ++ (spaces 0 ++ rest)) m true := by
          rw [hcol]
          exact h
        have hread := delivers_linesEntry hkey hd (linesRead d hd) (Nat.add_comm _ _) hb h' (by omega)
          (Nat.zero_le _) hrest.opens hgo
        rwa [hcol] at hread
  | false =>
    unfold page at h ⊢
    rw [hblock, if_neg Bool.false_ne_true] at h ⊢
    by_cases hscalar : ∃ style cs, d = .scalar style cs
    · obtain ⟨style, cs, rfl⟩ := hscalar
      obtain rfl : style = .plain := hroot
      rw [Fits] at hfits
      exact delivers_plainPage hfits h hrest hgo
    · have h' : Nears N s [-1] 0 (lines 2 d ++ (spaces 0 ++ rest)) m true := h
      exact delivers_flow hblock (fun style cs heq => hscalar ⟨style, cs, heq⟩) hfits (by omega) maxDepth
        h' (by omega) hgo

theorem endsPage_pages (ds : List Layout) : EndsPage (pages ds) := by
  cases ds with
  | nil => exact Or.inl rfl
  | cons d ds => exact Or.inr ⟨_, rfl⟩

/-- The documents behind another one are read to the end of the stream. -/
theorem behind_pages (ds : List Layout) : (∀ d ∈ ds, d.Fits 0 ∧ d.IsRoot ∧ (d.reread maxDepth ≠ d → b)) →
    Behind b N ((pages ds).length + 1) (-1) [] 0 (pages ds) (pagesKinds ds ++ [.streamEnd]) := by
  induction ds with
  | nil =>
    intro _ s m ls hls hcol h
    have hks : List.replicate ls.length TokenKind.blockEnd ++ (pagesKinds [] ++ [TokenKind.streamEnd]) =
        (List.replicate ls.length TokenKind.blockEnd ++ [TokenKind.streamEnd]) ++ [] := by
      simp [pagesKinds]
    rw [hks]
    refine h.delivers _ (n := 0) (Nat.succ_pos _) fun s' h' => ?_
    refine (TokenStream.leads_readToken_end h' hls).mono fun _ s'' hs'' => ?_
    exact ⟨hs''.2, .of_ended hs''.1 0⟩
  | cons d ds ih =>
    intro hall s m ls hls hcol h
    obtain ⟨⟨hfits, hroot, hb⟩, hall⟩ := List.forall_mem_cons.1 hall
    have htext : pages (d :: ds) = '-' :: '-' :: '-' :: '\n' :: (page d ++ pages ds) := by simp [pages]
    have hks : List.replicate ls.length TokenKind.blockEnd ++
          (pagesKinds (d :: ds) ++ [TokenKind.streamEnd]) =
        (List.replicate ls.length TokenKind.blockEnd ++ [TokenKind.documentStart]) ++
          ((d.reread maxDepth).kinds ++ (pagesKinds ds ++ [TokenKind.streamEnd])) := by
      simp [pagesKinds]
    rw [htext] at h ⊢
    rw [hks]
    refine h.delivers _ (n := (page d).length + ((pages ds).length + 1))
      (by simp only [List.length_cons, List.length_append]; omega) fun s' h' => ?_
    refine (TokenStream.leads_readToken_document h' hcol hls).mono fun _ s'' hs'' => ?_
    obtain ⟨⟨m', hs''⟩, hpush⟩ := hs''
    have hline : Stands N s'' [-1] 0 false ('\n' :: (spaces 0 ++ (page d ++ pages ds))) m' := hs''
    obtain ⟨m'', hcol', hnext⟩ := nears_fresh hline
    exact ⟨hpush, delivers_page hfits hroot hb hnext hcol' (endsPage_pages ds) (ih hall)⟩

/-- The tokens of a text of documents. -/
theorem delivers_pages {s : TokenStream} {m : Mark} {d : Layout} {ds : List Layout}
    (hall : ∀ e ∈ d :: ds, e.Fits 0 ∧ e.IsRoot ∧ (e.reread maxDepth ≠ e → b))
    (h : Stands N s [-1] 0 true (page d ++ pages ds) m) (hcol : m.column = 0) :
    Delivers b N ((page d ++ pages ds).length + 1) s []
      ((d.reread maxDepth).kinds ++ (pagesKinds ds ++ [.streamEnd])) := by
  obtain ⟨⟨hfits, hroot, hb⟩, hall⟩ := List.forall_mem_cons.1 hall
  have hnears : Nears N s [-1] 0 (page d ++ pages ds) m true := .line (k := 0) h
  rw [List.length_append, Nat.add_assoc]
  exact delivers_page hfits hroot hb hnears hcol (endsPage_pages ds) (behind_pages ds hall)

end Documents

end TreeLang.Yaml.Layout
