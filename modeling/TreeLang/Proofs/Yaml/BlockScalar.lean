import TreeLang.Proofs.Yaml.QuotedScalar

/-!
# Reading literal blocks

A text with line feeds is written as a literal block when it stands outside flow collections. Its
lines are indented, and hints after the bar say how far, if the text starts with a gap, and what
becomes of the breaks at its end.

A text that starts neither with a break nor with a tab is read back as it is. One that starts with a
break loses it, for the line of the bar ends with it. One that starts with a tab is not read at all.
-/

set_option autoImplicit false

namespace TreeLang.Yaml.Scalar

open Read
open Cursor (At)

section

variable {b : Prop} {N : Nat} {start : Mark} {c : Cursor} {m : Mark} {rest : List Char}

/-! ## In front of a line -/

theorem isSpace_of_isSpaceOrTab {ch : Char} (h : isSpaceOrTab ch = false) : (ch == ' ') = false :=
  (Bool.or_eq_false_iff.1 h).1

theorem isTab_of_isSpaceOrTab {ch : Char} (h : isSpaceOrTab ch = false) : (ch == '\t') = false :=
  (Bool.or_eq_false_iff.1 h).2

/-- Spaces are taken up to the indentation of a block, and not past it. -/
theorem leads_takeIndentation {indent k : Nat} (hk : k ≤ indent)
    (hhead : k < indent → isSpaceOrTab (rest.headD endChar) = false)
    (h : At N c (Style.spaces k ++ rest) m 0) :
    Leads b (takeOnto (· == ' ') indent []) c fun _ c' =>
      At N c' rest (m.over (Style.spaces k)) 0 := by
  have hlen : (Style.spaces k).length = k := List.length_replicate
  refine (leads_takeOnto (fun ch hch => by rw [mem_spaces hch]; rfl)
    (fun ch hch => by rw [mem_spaces hch]; rfl) h (by omega) fun hlt => ?_).mono fun _ _ hc => hc.2.1
  exact isSpace_of_isSpaceOrTab (hhead (by omega))

/-- A turn of the reading in front of a line: the spaces up to the indentation of the block are
taken, and then a line starts or a break is met. -/
theorem leads_readBlockBreaks_turn {indent k fuel widest : Nat} {breaks : List Char} {stop : Mark}
    {Q : List Char × Nat × Mark → Cursor → Prop} (hindent : 0 < indent) (hk : k ≤ indent)
    (hhead : k < indent → isSpaceOrTab (rest.headD endChar) = false)
    (h : At N c (Style.spaces k ++ rest) m 0) (hcol : m.column = 0)
    (hline : isBreak (rest.headD endChar) = false → ∀ {c' : Cursor} {m' : Mark}, m'.column = k →
      At N c' rest m' 1 → Q (breaks, max widest k, stop) c')
    (hbreak : isBreak (rest.headD endChar) = true → ∀ {c' : Cursor},
      At N c' rest (m.over (Style.spaces k)) 1 →
      Leads b (do
        let g ← takeBreak
        readBlockBreaks start indent fuel (breaks ++ g) (max widest k) (← mark)) c' Q) :
    Leads b (readBlockBreaks start indent (fuel + 1) breaks widest stop) c Q := by
  unfold readBlockBreaks
  simp only [leads_bind, leads_get, leads_mark, if_neg (Nat.ne_of_gt hindent)]
  refine (leads_need h 1).mono fun _ c₁ hc₁ => ?_
  rw [hc₁.2.mark, hcol, Nat.sub_zero]
  refine (leads_takeIndentation hk hhead hc₁.2).mono fun _ c₂ hc₂ => ?_
  refine (leads_need hc₂ 1).mono fun _ c₃ hc₃ => ?_
  have hahead : c₃.ahead 0 = rest.headD endChar := hc₃.1.headD
  have hcolumn : c₃.mark.column = k := by
    rw [hc₃.1.mark, Mark.column_over_spaces, hcol, Nat.zero_add]
  have htab : ((decide (indent = 0) || decide (k < indent)) && rest.headD endChar == '\t') = false := by
    rw [decide_eq_false (Nat.ne_of_gt hindent), Bool.false_or, Bool.and_eq_false_iff,
      decide_eq_false_iff_not]
    by_cases hlt : k < indent
    · exact Or.inr (isTab_of_isSpaceOrTab (hhead hlt))
    · exact Or.inl hlt
  simp only [hcolumn, leads_bind, leads_peek, hahead, htab, Bool.false_eq_true, if_false]
  by_cases hb : isBreak (rest.headD endChar) = true
  · rw [if_pos hb]
    exact hbreak hb hc₃.1
  · rw [if_neg hb]
    exact hline (eq_false_of_ne_true hb) hcolumn (hc₃.1.mark ▸ hc₃.1)

/-- The breaks in front of a line are read, and the spaces up to the indentation of the block. -/
theorem leads_readBlockBreaks {indent k : Nat} {bs : List Char} (hindent : 0 < indent)
    (hbs : ∀ ch ∈ bs, isBreak ch = true) (hk : k ≤ indent)
    (hbreak : isBreak (rest.headD endChar) = false)
    (hhead : k < indent → isSpaceOrTab (rest.headD endChar) = false) :
    ∀ {c : Cursor} {m stop : Mark} {fuel widest : Nat} {breaks : List Char},
      At N c (bs ++ (Style.spaces k ++ rest)) m 0 → m.column = 0 → bs.length < fuel →
      Leads b (readBlockBreaks start indent fuel breaks widest stop) c fun a c' =>
        a.1 = breaks ++ bs ∧ ∃ m', m'.column = k ∧ At N c' rest m' 1 := by
  induction bs with
  | nil =>
    intro c m stop fuel widest breaks h hcol hfuel
    obtain ⟨fuel, rfl⟩ : ∃ n, fuel = n + 1 := ⟨fuel - 1, by omega⟩
    refine leads_readBlockBreaks_turn hindent hk hhead h hcol ?_ ?_
    · exact fun _ {_ m'} hcol' hc' => ⟨(List.append_nil _).symm, m', hcol', hc'⟩
    · intro hb
      rw [hbreak] at hb
      cases hb
  | cons g bs ih =>
    intro c m stop fuel widest breaks h hcol hfuel
    obtain ⟨fuel, rfl⟩ : ∃ n, fuel = n + 1 := ⟨fuel - 1, by omega⟩
    have hg : isBreak g = true := hbs g List.mem_cons_self
    have h' : At N c (Style.spaces 0 ++ g :: (bs ++ (Style.spaces k ++ rest))) m 0 := h
    refine leads_readBlockBreaks_turn hindent (Nat.zero_le _) ?_ h' hcol ?_ ?_
    · exact fun _ => isSpaceOrTab_of_isBreak hg
    · intro hb
      rw [List.headD_cons, hg] at hb
      cases hb
    · intro _ c₁ hc₁
      simp only [leads_bind, leads_mark]
      refine (leads_takeBreak hc₁ hg).mono fun a c₂ hc₂ => ?_
      have hpast : ((m.over (Style.spaces 0)).past g).column = 0 := by
        unfold Mark.past
        rw [hg]
        rfl
      rw [hc₂.1]
      refine (ih (fun d hd => hbs d (List.mem_cons_of_mem _ hd)) (hc₂.2.mono (Nat.zero_le 1)) hpast
        (Nat.lt_of_succ_lt_succ hfuel)).mono fun a c₃ hc₃ => ⟨?_, hc₃.2⟩
      rw [hc₃.1, List.append_assoc]
      rfl

/-- When the indentation is not given, it is that of the first line. A tab is not accepted there. -/
theorem leads_readBlockBreaks_first {k fuel : Nat} {stop : Mark}
    (hbreak : isBreak (rest.headD endChar) = false) (hspace : (rest.headD endChar == ' ') = false)
    (htab : (rest.headD endChar == '\t') = true → b) (h : At N c (Style.spaces k ++ rest) m 0)
    (hcol : m.column = 0) :
    Leads b (readBlockBreaks start 0 (fuel + 1) [] 0 stop) c fun a c' =>
      (rest.headD endChar == '\t') = false ∧ a.1 = [] ∧ a.2.1 = k ∧
        ∃ m', m'.column = k ∧ At N c' rest m' 1 := by
  have hlen : (Style.spaces k).length = k := List.length_replicate
  unfold readBlockBreaks
  simp only [leads_bind, leads_get, leads_mark, if_true]
  refine (leads_need h 1).mono fun _ c₁ hc₁ => ?_
  have hroom := hc₁.1.room
  rw [List.length_append] at hroom
  -- with no indentation given, the spaces are taken as far as they go
  refine (leads_takeOnto (fun ch hch => by rw [mem_spaces hch]; rfl)
    (fun ch hch => by rw [mem_spaces hch]; rfl) hc₁.2 (by omega) fun _ => hspace).mono
    fun _ c₂ hc₂ => ?_
  refine (leads_need hc₂.2.1 1).mono fun _ c₃ hc₃ => ?_
  have hahead : c₃.ahead 0 = rest.headD endChar := hc₃.1.headD
  have hcolumn : c₃.mark.column = k := by
    rw [hc₃.1.mark, Mark.column_over_spaces, hcol, Nat.zero_add]
  simp only [leads_peek, hahead, decide_true, Bool.true_or, Bool.true_and, hcolumn, Nat.zero_max]
  by_cases ht : (rest.headD endChar == '\t') = true
  · rw [if_pos ht, leads_bind]
    exact htab ht
  · rw [if_neg ht]
    simp only [leads_bind, leads_peek, hahead, hbreak, Bool.false_eq_true, if_false, leads_pure]
    exact ⟨eq_false_of_ne_true ht, trivial, trivial, _, hcolumn, hc₃.1.mark ▸ hc₃.1⟩

/-! ## The line of the bar -/

/-- The sign of a chomping. -/
def Chomping.sign : Chomping → List Char
  | .clip => []
  | .strip => ['-']
  | .keep => ['+']

/-- What follows the bar: a hint at the indentation, and the sign of the chomping. -/
def hints (given : Bool) (k : Chomping) : List Char := (if given then ['2'] else []) ++ k.sign

theorem leads_readChomping (k : Chomping) (h : At N c (k.sign ++ rest) m 0)
    (hhead : chomping? (rest.headD endChar) = none) :
    Leads b readChomping c fun a c' =>
      a = (if k = .clip then none else some k) ∧ At N c' rest (m.over k.sign) 0 := by
  unfold readChomping
  simp only [leads_bind, leads_peek]
  refine (leads_need h 1).mono fun _ c₁ hc₁ => ?_
  cases k with
  | clip =>
    have hahead : c₁.ahead 0 = rest.headD endChar := hc₁.1.headD
    rw [hahead, hhead]
    exact ⟨rfl, hc₁.2⟩
  | strip =>
    have hahead : c₁.ahead 0 = '-' := hc₁.1.headD
    rw [hahead]
    exact ⟨rfl, hc₁.1.skip (by decide)⟩
  | keep =>
    have hahead : c₁.ahead 0 = '+' := hc₁.1.headD
    rw [hahead]
    exact ⟨rfl, hc₁.1.skip (by decide)⟩

theorem leads_readIncrement (given : Bool) (h : At N c ((if given then ['2'] else []) ++ rest) m 0)
    (hhead : (rest.headD endChar).isDigit = false) :
    Leads b (readIncrement start) c fun a c' =>
      a = (if given then some 2 else none) ∧
        At N c' rest (m.over (if given then ['2'] else [])) 0 := by
  unfold readIncrement
  simp only [leads_bind, leads_peek]
  refine (leads_need h 1).mono fun _ c₁ hc₁ => ?_
  cases given with
  | false =>
    have hahead : c₁.ahead 0 = rest.headD endChar := hc₁.1.headD
    have hzero : (rest.headD endChar == '0') = false := by
      rw [beq_eq_false_iff_ne]
      intro heq
      rw [heq] at hhead
      exact absurd hhead (by decide)
    simp only [hahead, hzero, hhead, Bool.false_eq_true, if_false, leads_pure]
    exact ⟨trivial, hc₁.2⟩
  | true =>
    have hahead : c₁.ahead 0 = '2' := hc₁.1.headD
    rw [hahead]
    exact ⟨rfl, hc₁.1.skip (by decide)⟩

theorem isBreak_spec {g : Char} (h : isBreak g = true) :
    chomping? g = none ∧ g.isDigit = false ∧ (g == '#') = false := by
  have hall : ∀ n ∈ [0x0A, 0x0D, 0x85, 0x2028, 0x2029], chomping? (Char.ofNat n) = none ∧
      (Char.ofNat n).isDigit = false ∧ (Char.ofNat n == '#') = false := by
    decide
  simp only [isBreak, Bool.or_eq_true, beq_iff_eq] at h
  rw [← Char.ofNat_toNat g]
  refine hall g.toNat ?_
  rcases h with (((h | h) | h) | h) | h <;> rw [h] <;> decide

/-- Read the indicators after the block mark, in either order. -/
def readHints (start : Mark) : Read (Option Chomping × Option Nat) := do
  match ← readChomping with
  | some k => return (some k, ← readIncrement start)
  | none =>
    match ← readIncrement start with
    | some n => return (← readChomping, some n)
    | none => return (none, none)

theorem readBlockHeader_eq (start : Mark) : readBlockHeader start = (do
    let (chomping, increment) ← readHints start
    skipBlanks
    let comment ← if (← peek) == '#' then Comment.readLine start.index else pure none
    if !isLineEnd (← peek) then fail .noCommentOrBreak start
    skipBreak
    return ⟨chomping.getD .clip, increment, comment⟩) := rfl

/-- The hints of a header are read: at most one digit and then at most one sign. -/
theorem leads_readHints {given : Bool} {k : Chomping} {g : Char} (hg : isBreak g = true)
    (h : At N c (hints given k ++ g :: rest) m 0) :
    Leads b (readHints start) c fun a c' =>
      a.1.getD .clip = k ∧ a.2 = (if given then some 2 else none) ∧ ∃ m', At N c' (g :: rest) m' 0 := by
  obtain ⟨hchomp, hdigit, -⟩ := isBreak_spec hg
  rw [hints, List.append_assoc] at h
  unfold readHints
  simp only [leads_bind]
  cases given with
  | false =>
    have hsign : At N c (k.sign ++ g :: rest) m 0 := h
    refine (leads_readChomping k hsign hchomp).mono fun a c₁ hc₁ => ?_
    have hnone : At N c₁ ((if false then ['2'] else []) ++ g :: rest) (m.over k.sign) 0 := hc₁.2
    rw [hc₁.1]
    by_cases hk : k = .clip
    · subst hk
      simp only [if_true, leads_bind]
      refine (leads_readIncrement false hnone hdigit).mono fun a c₂ hc₂ => ?_
      rw [hc₂.1]
      exact ⟨rfl, rfl, _, hc₂.2⟩
    · simp only [if_neg hk, leads_bind, leads_pure]
      refine (leads_readIncrement false hnone hdigit).mono fun a c₂ hc₂ => ?_
      exact ⟨rfl, hc₂.1, _, hc₂.2⟩
  | true =>
    have hdigit' : ((k.sign ++ g :: rest).headD endChar).isDigit = false := by
      cases k with
      | clip => exact hdigit
      | strip => rfl
      | keep => rfl
    have hsign : At N c (Chomping.clip.sign ++ '2' :: (k.sign ++ g :: rest)) m 0 := h
    refine (leads_readChomping .clip hsign rfl).mono fun a c₁ hc₁ => ?_
    have htwo : At N c₁ ((if true then ['2'] else []) ++ (k.sign ++ g :: rest)) m 0 := hc₁.2
    rw [hc₁.1]
    simp only [if_true, leads_bind]
    refine (leads_readIncrement true htwo hdigit').mono fun a c₂ hc₂ => ?_
    rw [hc₂.1]
    simp only [if_true, leads_bind, leads_pure]
    refine (leads_readChomping k hc₂.2 hchomp).mono fun a c₃ hc₃ => ?_
    refine ⟨?_, trivial, _, hc₃.2⟩
    rw [hc₃.1]
    cases k <;> rfl

/-- The line of the bar is read with its hints, and with the break that ends it. -/
theorem leads_readBlockHeader {given : Bool} {k : Chomping} {g : Char} (hg : isBreak g = true)
    (h : At N c (hints given k ++ g :: rest) m 0) :
    Leads b (readBlockHeader start) c fun a c' =>
      a = ⟨k, if given then some 2 else none, none⟩ ∧ ∃ m', m'.column = 0 ∧ At N c' rest m' 1 := by
  obtain ⟨-, -, hhash⟩ := isBreak_spec hg
  have hblank := isSpaceOrTab_of_isBreak hg
  have hline : isLineEnd g = true := by rw [isLineEnd, hg, Bool.true_or]
  rw [readBlockHeader_eq]
  unfold skipBlanks
  simp only [leads_bind, leads_pure, leads_peek]
  refine (leads_readHints hg h).mono fun a c₁ hc₁ => ?_
  obtain ⟨hk, hn, m₁, hc₁⟩ := hc₁
  have hblanks : At N c₁ ([] ++ g :: rest) m₁ 0 := hc₁
  refine (leads_takeWhile (List.forall_mem_nil _) (List.forall_mem_nil _) hblanks hblank).mono
    fun _ c₂ hc₂ => ?_
  have hahead : c₂.ahead 0 = g := hc₂.2.headD
  simp only [hahead, hhash, Bool.false_eq_true, if_false, leads_pure, leads_bind, leads_peek, hline,
    Bool.not_true]
  refine (leads_skipBreak hc₂.2 hg).mono fun _ c₃ hc₃ => ⟨?_, _, ?_, hc₃⟩
  · rw [hk, hn]
  · unfold Mark.past
    rw [hg]
    rfl

/-! ## Lines -/

/-- A line is read with the breaks after it and the indentation of the next one. -/
theorem leads_readBlockLines_line {indent k fuel : Nat} {w gs : List Char} {g : Char} {s : BlockState}
    {Q : BlockState → Cursor → Prop} (hindent : 0 < indent) (hne : w ≠ [])
    (hw : ∀ ch ∈ w, isBreak ch = false) (hg : isBreak g = true) (hgs : ∀ ch ∈ gs, isBreak ch = true)
    (hk : k ≤ indent) (hbreak : isBreak (rest.headD endChar) = false)
    (hhead : k < indent → isSpaceOrTab (rest.headD endChar) = false)
    (h : At N c (w ++ g :: (gs ++ (Style.spaces k ++ rest))) m 1) (hcol : m.column = indent)
    (hgo : ∀ {s' : BlockState} {c' : Cursor} {m' : Mark},
      s'.acc = w.reverse ++ onto (s.first ++ s.more) s.acc → s'.first = [g] → s'.more = gs →
      m'.column = k → At N c' rest m' 1 → Leads b (readBlockLines start true indent fuel s') c' Q) :
    Leads b (readBlockLines start true indent (fuel + 1) s) c Q := by
  obtain ⟨hclear, -⟩ := clear_append.1 h.clear
  have hline : ∀ ch ∈ w, (!isLineEnd ch) = true := by
    intro ch hch
    rw [isLineEnd, hw ch hch, Bool.false_or, beq_eq_false_iff_ne.2 (ne_endChar (hclear ch hch))]
    rfl
  have hstop : (!isLineEnd g) = false := by
    rw [isLineEnd, hg]
    rfl
  have hahead : c.ahead 0 ≠ endChar := by
    rw [h.headD]
    obtain ⟨d, w, rfl⟩ := List.exists_cons_of_ne_nil hne
    exact ne_endChar (hclear d List.mem_cons_self)
  have hcond : (c.mark.column == indent && c.ahead 0 != endChar) = true := by
    rw [h.mark, hcol, beq_self_eq_true, Bool.true_and, bne_iff_ne]
    exact hahead
  unfold readBlockLines
  simp only [leads_bind, leads_peek, leads_mark, hcond, if_true, leads_bound]
  refine (leads_takeWhile hline hw h hstop).mono fun a c₁ hc₁ => ?_
  refine (leads_takeBreak hc₁.2 hg).mono fun a' c₂ hc₂ => ?_
  -- the breaks after the line are read from the first column of the next one
  have hzero : ((m.over w).past g).column = 0 := by
    unfold Mark.past
    rw [hg]
    rfl
  have hroom := hc₂.2.room
  rw [List.length_append] at hroom
  refine (leads_readBlockBreaks hindent hgs hk hbreak hhead (hc₂.2.mono (Nat.zero_le 1)) hzero
    (by omega)).mono fun a'' c₃ hc₃ => ?_
  obtain ⟨hmore, m', hcol', hc₃⟩ := hc₃
  refine hgo ?_ hc₂.1 hmore hcol' hc₃
  rw [hc₁.1]
  rfl

theorem leads_readBlockLines_stop {indent fuel : Nat} {s : BlockState} {literal : Bool}
    (h : c.mark.column ≠ indent) :
    Leads b (readBlockLines start literal indent fuel s) c fun a c' => a = s ∧ c' = c := by
  cases fuel with
  | zero => exact ⟨rfl, rfl⟩
  | succ fuel =>
    have hcond : (c.mark.column == indent && c.ahead 0 != endChar) = false := by
      rw [beq_eq_false_iff_ne.2 h, Bool.false_and]
    unfold readBlockLines
    simp only [leads_bind, leads_peek, leads_mark, hcond, Bool.false_eq_true, if_false, leads_pure]
    exact ⟨trivial, trivial⟩

/-- What is kept of the breaks at the end of a block. -/
def BlockState.kept (s : BlockState) : Chomping → List Char
  | .strip => []
  | .clip => s.first
  | .keep => s.first ++ s.more

/-- The chomping that keeps the breaks at the end of a text. -/
def chompingOf (cs : List Char) : Chomping :=
  match cs.reverse with
  | [] => .strip
  | [c] => if isBreak c then .keep else .strip
  | c :: d :: _ => if !isBreak c then .strip else if isBreak d then .keep else .clip

/-- Only what follows the last line matters. -/
theorem chompingOf_append {cs : List Char} (hne : cs ≠ []) (hhead : ∀ c ∈ cs.head?, isBreak c = false)
    (ds : List Char) : chompingOf (ds ++ cs) = chompingOf cs := by
  unfold chompingOf
  rw [List.reverse_append]
  match hr : cs.reverse with
  | [] => exact absurd (List.reverse_eq_nil_iff.1 hr) hne
  | [c] =>
    obtain rfl : cs = [c] := by
      rw [← List.reverse_reverse cs, hr]
      rfl
    have hc := hhead c rfl
    cases ds.reverse with
    | nil => rfl
    | cons d r => simp [hc]
  | c :: d :: r => rfl

theorem chompingOf_word {w : List Char} (hw : ∀ c ∈ w, isBreak c = false) :
    chompingOf w = .strip := by
  unfold chompingOf
  split
  · rfl
  · rename_i c hr
    have hc : c ∈ w := List.mem_reverse.1 (hr ▸ List.mem_cons_self)
    rw [hw c hc]
    rfl
  · rename_i c d r hr
    have hc : c ∈ w := List.mem_reverse.1 (hr ▸ List.mem_cons_self)
    rw [hw c hc]
    rfl

/-- The last break decides on what becomes of the breaks at the end, and then whether there is one
before it. -/
theorem chompingOf_breaks {w gs : List Char} {g : Char} (hne : w ≠ [])
    (hw : ∀ c ∈ w, isBreak c = false) (hg : isBreak g = true) (hgs : ∀ c ∈ gs, isBreak c = true) :
    chompingOf (w ++ g :: gs) = if gs = [] then .clip else .keep := by
  have hrev : (w ++ g :: gs).reverse = gs.reverse ++ g :: w.reverse := by simp
  unfold chompingOf
  rw [hrev]
  match hr : gs.reverse with
  | [] =>
    obtain ⟨x, v, hv⟩ := List.exists_cons_of_ne_nil (mt List.reverse_eq_nil_iff.1 hne)
    have hx : x ∈ w := List.mem_reverse.1 (hv ▸ List.mem_cons_self)
    rw [hv, if_pos (List.reverse_eq_nil_iff.1 hr)]
    simp [hg, hw x hx]
  | [y] =>
    have hy : y ∈ gs := List.mem_reverse.1 (hr ▸ List.mem_cons_self)
    have hgsne : gs ≠ [] := fun h => by rw [h] at hy; cases hy
    rw [if_neg hgsne]
    simp [hgs y hy, hg]
  | y :: z :: r =>
    have hy : y ∈ gs := List.mem_reverse.1 (hr ▸ List.mem_cons_self)
    have hz : z ∈ gs := List.mem_reverse.1 (hr ▸ List.mem_cons_of_mem _ List.mem_cons_self)
    have hgsne : gs ≠ [] := fun h => by rw [h] at hy; cases hy
    rw [if_neg hgsne]
    simp [hgs y hy, hgs z hz]

theorem chompingOf_all {cs : List Char} (hne : cs ≠ []) (h : ∀ c ∈ cs, isBreak c = true) :
    chompingOf cs = .keep := by
  have hmem : ∀ c ∈ cs.reverse, isBreak c = true := fun c hc => h c (List.mem_reverse.1 hc)
  unfold chompingOf
  match hr : cs.reverse with
  | [] => exact absurd (List.reverse_eq_nil_iff.1 hr) hne
  | [c] => simp [hmem c (hr ▸ List.mem_cons_self)]
  | c :: d :: r =>
    simp [hmem c (hr ▸ List.mem_cons_self), hmem d (hr ▸ List.mem_cons_of_mem _ List.mem_cons_self)]

/-- What ends the last line of a text that does not end in a break. -/
def closing (cs : List Char) : List Char := if Style.endsIn isBreak cs then [] else ['\n']

theorem closing_word {w : List Char} (hw : ∀ c ∈ w, isBreak c = false) : closing w = ['\n'] := by
  unfold closing Style.endsIn
  cases hlast : w.getLast? with
  | none => rfl
  | some c =>
    have hc := hw c (List.mem_of_getLast? hlast)
    simp [hc]

theorem closing_append {ds : List Char} (hne : ds ≠ []) (cs : List Char) :
    closing (cs ++ ds) = closing ds := by
  unfold closing Style.endsIn
  rw [List.getLast?_append, List.getLast?_eq_some_getLast hne, Option.some_or]

theorem closing_breaks {gs : List Char} (hne : gs ≠ []) (hgs : ∀ c ∈ gs, isBreak c = true) :
    closing gs = [] := by
  unfold closing Style.endsIn
  rw [List.getLast?_eq_some_getLast hne]
  simp [hgs _ (List.getLast_mem hne)]

theorem headD_indented_isBreak {indent : Nat} {cs : List Char} (hne : cs ≠ [])
    (hcs : ∀ ch ∈ cs.head?, isBreak ch = false) (more : List Char) :
    isBreak ((Style.indented indent false cs ++ more).headD endChar) = false := by
  have hhead := head?_indented indent cs
  cases hds : Style.indented indent false cs with
  | nil =>
    rw [hds] at hhead
    cases cs with
    | nil => exact absurd rfl hne
    | cons d cs => cases hhead
  | cons d ds =>
    rw [hds] at hhead
    exact hcs d hhead.symm

/-- The lines of a literal block are read to their end. -/
theorem leads_readBlockLines {indent n : Nat} (hindent : n < indent)
    (hhead : isSpaceOrTab (rest.headD endChar) = false ∧ isBreak (rest.headD endChar) = false) :
    ∀ ds : List Char, ds ≠ [] → (∀ ch ∈ ds.head?, isBreak ch = false) →
    ∀ {c : Cursor} {m : Mark} {fuel : Nat} {s : BlockState},
      At N c (Style.indented indent false ds ++ (closing ds ++ (Style.spaces n ++ rest))) m 1 →
      m.column = indent → ds.length < fuel →
      Leads b (readBlockLines start true indent fuel s) c fun s' c' =>
        onto (s'.kept (chompingOf ds)) s'.acc = ds.reverse ++ onto (s.first ++ s.more) s.acc ∧
          ∃ m', m'.column = n ∧ At N c' rest m' 1 := by
  have hpos : 0 < indent := by omega
  have hstop : ∀ {c' : Cursor} {m' : Mark}, At N c' rest m' 1 → m'.column = n →
      c'.mark.column ≠ indent := by
    intro c' m' hc' hcol'
    rw [hc'.mark, hcol']
    omega
  -- line by line: a word is the text of a line, and a gap the breaks after it
  refine words_induction isBreak ?_ ?_
  · intro w hw hne _ c m fuel s h hcol hfuel
    obtain ⟨fuel, rfl⟩ : ∃ n, fuel = n + 1 := ⟨fuel - 1, by omega⟩
    have hword : Style.indented indent false (w ++ []) = w ++ Style.indented indent false [] :=
      indented_word hw
    rw [List.append_nil, Style.indented, List.append_nil] at hword
    rw [hword, closing_word hw] at h
    have h' : At N c (w ++ '\n' :: ([] ++ (Style.spaces n ++ rest))) m 1 := h
    refine leads_readBlockLines_line hpos hne hw rfl (List.forall_mem_nil _) (Nat.le_of_lt hindent)
      hhead.2 (fun _ => hhead.1) h' hcol fun {s' c' m'} hacc _ _ hcol' hc' => ?_
    refine (leads_readBlockLines_stop (hstop hc' hcol')).mono ?_
    rintro _ _ ⟨rfl, rfl⟩
    refine ⟨?_, m', hcol', hc'⟩
    rw [chompingOf_word hw]
    exact hacc
  · intro w gap cs hw hne hgap hcs ih _ hfirst c m fuel s h hcol hfuel
    obtain ⟨fuel, rfl⟩ : ∃ n, fuel = n + 1 := ⟨fuel - 1, by omega⟩
    obtain ⟨g, gs, rfl⟩ := List.exists_cons_of_ne_nil hne
    have hg : isBreak g = true := hgap g List.mem_cons_self
    have hgs : ∀ ch ∈ gs, isBreak ch = true := fun ch hch => hgap ch (List.mem_cons_of_mem _ hch)
    have hwne : w ≠ [] := by
      rintro rfl
      rw [hfirst g rfl] at hg
      cases hg
    rw [indented_word hw, indented_breaks hne hgap] at h
    by_cases hnil : cs = []
    · subst hnil
      rw [List.append_nil, closing_append hne, closing_breaks hne hgap] at h
      have h' : At N c (w ++ g :: (gs ++ (Style.spaces n ++ rest))) m 1 := by
        simpa [Style.indented] using h
      refine leads_readBlockLines_line hpos hwne hw hg hgs (Nat.le_of_lt hindent) hhead.2
        (fun _ => hhead.1) h' hcol fun {s' c' m'} hacc hone hmore hcol' hc' => ?_
      refine (leads_readBlockLines_stop (hstop hc' hcol')).mono ?_
      rintro s' c' ⟨rfl, rfl⟩
      refine ⟨?_, m', hcol', hc'⟩
      have hkept : s'.kept (if gs = [] then .clip else .keep) = g :: gs := by
        split
        · rename_i hgs
          rw [hgs]
          exact hone
        · show s'.first ++ s'.more = _
          rw [hone, hmore]
          rfl
      rw [List.append_nil, chompingOf_breaks hwne hw hg hgs, hkept, hacc, onto, List.reverse_append,
        List.append_assoc]
    · have hnext : isBreak ((Style.indented indent false cs ++
          (closing cs ++ (Style.spaces n ++ rest))).headD endChar) = false :=
        headD_indented_isBreak hnil hcs _
      have hstart : Style.indented indent true cs =
          Style.spaces indent ++ Style.indented indent false cs := indented_start hnil hcs
      rw [hstart, closing_append (List.append_ne_nil_of_right_ne_nil _ hnil), closing_append hnil] at h
      have h' : At N c (w ++ g :: (gs ++ (Style.spaces indent ++ (Style.indented indent false cs ++
          (closing cs ++ (Style.spaces n ++ rest)))))) m 1 := by
        simpa using h
      refine leads_readBlockLines_line hpos hwne hw hg hgs (Nat.le_refl _) hnext
        (fun hlt => absurd hlt (Nat.lt_irrefl _)) h' hcol fun {s' c' m'} hacc hone hmore hcol' hc' => ?_
      simp only [List.length_append, List.length_cons] at hfuel
      refine (ih hnil hcs hc' hcol' (by omega)).mono fun s'' c'' hc'' => ⟨?_, hc''.2⟩
      rw [← List.append_assoc w, chompingOf_append hnil hcs, hc''.1, hone, hmore, hacc]
      simp [onto]

/-! ## Literal blocks -/

/-- What is done once the indentation of a block is known. -/
def readBody (start : Mark) (literal : Bool) (indent : Nat) (header : BlockHeader) (more : List Char)
    (stop : Mark) : Read (Token × Option Comment) := do
  need 1
  let s ← readBlockLines start literal indent (← bound) { more := more, stop := stop }
  return (⟨.scalar (Utf8.encode (onto (s.kept header.chomping) s.acc).reverse) false, start, s.stop⟩,
    header.comment)

theorem readBlock_eq (literal : Bool) (outer : Int) : readBlock literal outer = (do
    let start ← mark
    skip
    let header ← readBlockHeader start
    let given := match header.increment with
      | some n => (max outer 0).toNat + n
      | none => 0
    let (more, widest, stop) ← readBlockBreaks start given (← bound) [] 0 (← mark)
    readBody start literal (if given = 0 then blockIndent outer widest else given) header more stop) :=
  rfl

/-- Whether a text starts with a space or a break. -/
def startsGap (cs : List Char) : Bool := Style.startsIn (fun c => Style.isSpace c || isBreak c) cs

theorem literalHints_eq (cs : List Char) :
    Style.literalHints cs = hints (startsGap cs) (chompingOf cs) := by
  unfold Style.literalHints hints startsGap chompingOf
  dsimp only
  congr 1
  match cs.reverse with
  | [] => rfl
  | [c] => cases hc : isBreak c <;> simp [hc, Chomping.sign]
  | c :: d :: r => cases hc : isBreak c <;> cases hd : isBreak d <;> simp [hc, hd, Chomping.sign]

theorem length_le_indented (indent : Nat) (cs : List Char) :
    ∀ atStart : Bool, cs.length ≤ (Style.indented indent atStart cs).length := by
  induction cs with
  | nil => exact fun _ => Nat.le_refl _
  | cons c cs ih =>
    intro atStart
    rw [Style.indented]
    split
    · exact Nat.succ_le_succ (ih true)
    · rw [List.length_append, List.length_cons, List.length_cons]
      have := ih false
      omega

/-- The lines of a text after some breaks are read, and the end of it is kept as the hints say. -/
theorem leads_readBody {indent n : Nat} {increment : Option Nat} {stop : Mark} {ds more : List Char}
    (hindent : n < indent)
    (hhead : isSpaceOrTab (rest.headD endChar) = false ∧ isBreak (rest.headD endChar) = false)
    (hne : ds ≠ []) (hfirst : ∀ ch ∈ ds.head?, isBreak ch = false)
    (h : At N c (Style.indented indent false ds ++ (closing ds ++ (Style.spaces n ++ rest))) m 1)
    (hcol : m.column = indent) :
    Leads b (readBody start true indent ⟨chompingOf ds, increment, none⟩ more stop) c fun a c' =>
      a.1.kind = .scalar (Utf8.encode (more ++ ds)) false ∧ a.2 = none ∧
        ∃ m', m'.column = n ∧ At N c' rest m' 1 := by
  unfold readBody
  simp only [leads_bind, leads_bound, leads_pure]
  refine (leads_need h 1).mono fun _ c₁ hc₁ => ?_
  have hroom := hc₁.1.room
  have hlen := length_le_indented indent ds false
  rw [List.length_append] at hroom
  refine (leads_readBlockLines hindent hhead ds hne hfirst hc₁.1 hcol (by omega)).mono
    fun s c₂ hc₂ => ⟨?_, trivial, hc₂.2⟩
  rw [hc₂.1]
  simp [onto]

/-- With a hint at the indentation, breaks in front of the first line are kept. -/
theorem leads_readBody_given {indent n : Nat} {k : Chomping} {increment : Option Nat}
    {cs cl : List Char} {stop : Mark} (hindent : n < indent)
    (hhead : isSpaceOrTab (rest.headD endChar) = false ∧ isBreak (rest.headD endChar) = false)
    (hlines : ∀ bs ds, cs = bs ++ ds → ds ≠ [] → (∀ ch ∈ ds.head?, isBreak ch = false) →
      k = chompingOf ds ∧ cl = closing ds)
    (hblank : (∀ ch ∈ cs, isBreak ch = true) → k = .keep ∧ cl = [])
    (h : At N c (Style.indented indent true cs ++ (cl ++ (Style.spaces n ++ rest))) m 1)
    (hcol : m.column = 0) :
    Leads b (readBlockBreaks start indent c.bound [] 0 stop) c fun a c' =>
      Leads b (readBody start true indent ⟨k, increment, none⟩ a.1 a.2.2) c' fun a c' =>
        a.1.kind = .scalar (Utf8.encode cs) false ∧ a.2 = none ∧
          ∃ m', m'.column = n ∧ At N c' rest m' 1 := by
  have hpos : 0 < indent := by omega
  have hroom := h.room
  have hlen := length_le_indented indent cs true
  rw [List.length_append] at hroom
  -- the text is split after the breaks it starts with
  have hsplit := List.takeWhile_append_dropWhile (p := isBreak) (l := cs)
  have hbs : ∀ ch ∈ cs.takeWhile isBreak, isBreak ch = true :=
    List.all_eq_true.1 List.all_takeWhile
  have hds := head?_dropWhile_eq_false isBreak cs
  generalize cs.takeWhile isBreak = bs at hsplit hbs
  generalize cs.dropWhile isBreak = ds at hsplit hds
  subst hsplit
  have hbslen : bs.length < c.bound := by
    rw [List.length_append] at hlen
    omega
  have hstart : Style.indented indent true (bs ++ ds) = bs ++ Style.indented indent true ds := by
    cases bs with
    | nil => rfl
    | cons g bs => exact indented_breaks (List.cons_ne_nil _ _) hbs true
  rw [hstart, List.append_assoc] at h
  by_cases hnil : ds = []
  · -- the text is made of breaks only
    subst hnil
    rw [List.append_nil] at hblank
    obtain ⟨rfl, rfl⟩ := hblank hbs
    have h' : At N c (bs ++ (Style.spaces n ++ rest)) m 0 := h.mono (Nat.zero_le 1)
    refine (leads_readBlockBreaks hpos hbs (Nat.le_of_lt hindent) hhead.2 (fun _ => hhead.1) h' hcol
      hbslen).mono fun a c₁ hc₁ => ?_
    obtain ⟨hmore, m', hcol', hc₁⟩ := hc₁
    unfold readBody
    simp only [leads_bind, leads_bound, leads_pure]
    refine (leads_need hc₁ 1).mono fun _ c₂ hc₂ => ?_
    refine (leads_readBlockLines_stop (by rw [hc₂.1.mark, hcol']; omega)).mono ?_
    rintro s c' ⟨rfl, rfl⟩
    refine ⟨?_, trivial, m', hcol', hc₂.1⟩
    rw [hmore]
    simp [onto, BlockState.kept]
  · obtain ⟨rfl, rfl⟩ := hlines bs ds rfl hnil hds
    rw [indented_start hnil hds, List.append_assoc] at h
    have hnext : isBreak ((Style.indented indent false ds ++
        (closing ds ++ (Style.spaces n ++ rest))).headD endChar) = false :=
      headD_indented_isBreak hnil hds _
    refine (leads_readBlockBreaks hpos hbs (Nat.le_refl _) hnext
      (fun hlt => absurd hlt (Nat.lt_irrefl _)) (h.mono (Nat.zero_le 1)) hcol hbslen).mono
      fun a c₁ hc₁ => ?_
    obtain ⟨hmore, m', hcol', hc₁⟩ := hc₁
    rw [hmore]
    exact leads_readBody hindent hhead hnil hds hc₁ hcol'

/-- What is read of a literal block: a break at the start of a text is lost. -/
def readBack (cs : List Char) : List Char := if Style.startsIn isBreak cs then cs.tail else cs

/-- The form of a text that starts with a break: the break ends the line of the bar. -/
theorem literalForm_break {indent : Nat} {g : Char} (hg : isBreak g = true) (ds : List Char) :
    Style.literalForm indent (g :: ds) =
      '|' :: (hints true (chompingOf (g :: ds)) ++ g :: Style.indented indent true ds) := by
  have hgap : startsGap (g :: ds) = true := by simp [startsGap, Style.startsIn, hg]
  have hstart : Style.startsIn isBreak (g :: ds) = true := hg
  unfold Style.literalForm
  rw [literalHints_eq, hgap, hstart, Style.indented, if_pos hg, if_pos rfl, List.append_nil]
  rfl

/-- The form of a text that starts with a line: a line feed ends the line of the bar. -/
theorem literalForm_line {indent : Nat} {g : Char} (hg : isBreak g = false) (ds : List Char) :
    Style.literalForm indent (g :: ds) =
      '|' :: (hints (startsGap (g :: ds)) (chompingOf (g :: ds)) ++
        '\n' :: Style.indented indent true (g :: ds)) := by
  have hstart : Style.startsIn isBreak (g :: ds) = false := hg
  unfold Style.literalForm
  rw [literalHints_eq, hstart, if_neg Bool.false_ne_true, List.append_assoc]
  rfl

section

variable {indent n : Nat} {outer : Int}

/-- A literal block with a hint at the indentation is read to its end. -/
theorem leads_readBlock_hinted {k : Chomping} {g : Char} {cs cl : List Char} (houter : 0 ≤ outer)
    (hindent : (indent : Int) = outer + 2) (hn : n < indent)
    (hhead : isSpaceOrTab (rest.headD endChar) = false ∧ isBreak (rest.headD endChar) = false)
    (hlines : ∀ bs ds, cs = bs ++ ds → ds ≠ [] → (∀ ch ∈ ds.head?, isBreak ch = false) →
      k = chompingOf ds ∧ cl = closing ds)
    (hblank : (∀ ch ∈ cs, isBreak ch = true) → k = .keep ∧ cl = []) (hg : isBreak g = true)
    (h : At N c ('|' :: (hints true k ++ g :: (Style.indented indent true cs ++
      (cl ++ (Style.spaces n ++ rest))))) m 1) :
    Leads b (readBlock true outer) c fun a c' =>
      a.1.kind = .scalar (Utf8.encode cs) false ∧ a.2 = none ∧
        ∃ m', m'.column = n ∧ At N c' rest m' 1 := by
  have hgiven : (max outer 0).toNat + 2 = indent := by omega
  have hnotzero : indent ≠ 0 := by omega
  rw [readBlock_eq]
  simp only [leads_bind, leads_mark, leads_skip, leads_bound]
  refine (leads_readBlockHeader hg (h.skip (by decide))).mono fun a c₁ hc₁ => ?_
  obtain ⟨rfl, m', hcol, hc₁⟩ := hc₁
  simp only [if_true, hgiven, if_neg hnotzero]
  exact leads_readBody_given hn hhead hlines hblank hc₁ hcol

/-- A literal block without a hint is read to its end, with the indentation of its first line,
unless that line starts with a tab. -/
theorem leads_readBlock_unhinted {g : Char} {ds : List Char} (houter : 0 ≤ outer)
    (hindent : (indent : Int) = outer + 2) (hn : n < indent)
    (hhead : isSpaceOrTab (rest.headD endChar) = false ∧ isBreak (rest.headD endChar) = false)
    (hg : isBreak g = false) (hspace : (g == ' ') = false) (htab : g = '\t' → b)
    (h : At N c ('|' :: (hints false (chompingOf (g :: ds)) ++
      '\n' :: (Style.indented indent true (g :: ds) ++
        (closing (g :: ds) ++ (Style.spaces n ++ rest))))) m 1) :
    Leads b (readBlock true outer) c fun a c' =>
      g ≠ '\t' ∧ a.1.kind = .scalar (Utf8.encode (g :: ds)) false ∧ a.2 = none ∧
        ∃ m', m'.column = n ∧ At N c' rest m' 1 := by
  have hne : g :: ds ≠ [] := List.cons_ne_nil _ _
  have hfirst : ∀ ch ∈ (g :: ds).head?, isBreak ch = false := by
    rintro ch ⟨⟩
    exact hg
  have hnext : (Style.indented indent false (g :: ds) ++
      (closing (g :: ds) ++ (Style.spaces n ++ rest))).headD endChar = g := by
    rw [Style.indented, hg, if_neg Bool.false_ne_true]
    rfl
  rw [readBlock_eq]
  simp only [leads_bind, leads_mark, leads_skip, leads_bound]
  refine (leads_readBlockHeader (by decide) (h.skip (by decide))).mono fun a c₁ hc₁ => ?_
  obtain ⟨rfl, m', hcol, hc₁⟩ := hc₁
  simp only [Bool.false_eq_true, if_false, if_true]
  rw [indented_start hne hfirst, List.append_assoc] at hc₁
  have hroom := hc₁.room
  obtain ⟨fuel, hfuel⟩ : ∃ fuel, c₁.bound = fuel + 1 := ⟨c₁.bound - 1, by omega⟩
  rw [hfuel]
  refine (leads_readBlockBreaks_first (by rw [hnext]; exact hg) (by rw [hnext]; exact hspace) ?_
    (hc₁.mono (Nat.zero_le 1)) hcol).mono fun a c₂ hc₂ => ?_
  · rw [hnext]
    exact fun ht => htab (beq_iff_eq.1 ht)
  · obtain ⟨ht, hmore, hwidest, m₂, hcol₂, hc₂⟩ := hc₂
    rw [hnext] at ht
    have hblock : blockIndent outer indent = indent := by
      unfold blockIndent
      omega
    rw [hmore, hwidest, hblock]
    exact (leads_readBody hn hhead hne hfirst hc₂ hcol₂).mono fun _ _ hc₃ =>
      ⟨beq_eq_false_iff_ne.1 ht, hc₃⟩

/-- A literal block is read to its end, unless its text starts with a tab. -/
theorem leads_readBlock {cs : List Char} (houter : 0 ≤ outer) (hindent : (indent : Int) = outer + 2)
    (hn : n < indent) (hne : cs ≠ [])
    (hhead : isSpaceOrTab (rest.headD endChar) = false ∧ isBreak (rest.headD endChar) = false)
    (htab : cs.head? = some '\t' → b)
    (h : At N c (Style.literalForm indent cs ++ (closing cs ++ (Style.spaces n ++ rest))) m 1) :
    Leads b (readBlock true outer) c fun a c' =>
      cs.head? ≠ some '\t' ∧ a.1.kind = .scalar (Utf8.encode (readBack cs)) false ∧ a.2 = none ∧
        ∃ m', m'.column = n ∧ At N c' rest m' 1 := by
  obtain ⟨g, ds, rfl⟩ := List.exists_cons_of_ne_nil hne
  -- the lines after some breaks decide on what becomes of the breaks at the end
  have hlines : ∀ bs es, g :: ds = bs ++ es → es ≠ [] → (∀ ch ∈ es.head?, isBreak ch = false) →
      chompingOf (g :: ds) = chompingOf es ∧ closing (g :: ds) = closing es := by
    intro bs es heq hes hfirst
    rw [heq]
    exact ⟨chompingOf_append hes hfirst _, closing_append hes _⟩
  by_cases hg : isBreak g = true
  · have hback : readBack (g :: ds) = ds := if_pos hg
    have hno : (g :: ds).head? ≠ some '\t' := fun heq => by
      rw [Option.some.inj heq] at hg
      cases hg
    rw [literalForm_break hg, List.cons_append, List.append_assoc, List.cons_append] at h
    rw [hback]
    refine (leads_readBlock_hinted houter hindent hn hhead (fun bs es heq => ?_) (fun hall => ?_) hg
      h).mono fun _ _ hc => ⟨hno, hc⟩
    · exact hlines (g :: bs) es (congrArg (g :: ·) heq)
    · have hall' : ∀ ch ∈ g :: ds, isBreak ch = true := List.forall_mem_cons.2 ⟨hg, hall⟩
      exact ⟨chompingOf_all hne hall', closing_breaks hne hall'⟩
  · rw [Bool.not_eq_true] at hg
    have hback : readBack (g :: ds) = g :: ds := if_neg (by simpa [Style.startsIn] using hg)
    rw [literalForm_line hg, List.cons_append, List.append_assoc, List.cons_append] at h
    rw [hback]
    cases hspace : startsGap (g :: ds) with
    | true =>
      rw [hspace] at h
      have hno : (g :: ds).head? ≠ some '\t' := fun heq => by
        rw [Option.some.inj heq] at hspace
        cases hspace
      refine (leads_readBlock_hinted houter hindent hn hhead hlines (fun hall => ?_) (by decide)
        h).mono fun _ _ hc => ⟨hno, hc⟩
      rw [hall g List.mem_cons_self] at hg
      cases hg
    | false =>
      rw [hspace] at h
      refine (leads_readBlock_unhinted houter hindent hn hhead hg (Bool.or_eq_false_iff.1 hspace).1
        (fun ht => htab (congrArg some ht)) h).mono fun _ _ hc => ⟨?_, hc.2⟩
      exact fun heq => hc.1 (Option.some.inj heq)

end

end

theorem clear_hints (given : Bool) (k : Chomping) : Clear (hints given k) := by
  apply clear_of_all
  cases given <;> cases k <;> decide

theorem clear_literalForm {indent : Nat} {cs : List Char} (h : Clear cs) :
    Clear (Style.literalForm indent cs) := by
  have hfront : Clear ('|' :: hints (startsGap cs) (chompingOf cs)) := by
    intro d hd
    rcases List.mem_cons.1 hd with rfl | hd
    · decide
    · exact clear_hints _ _ d hd
  unfold Style.literalForm
  rw [literalHints_eq]
  refine clear_append.2 ⟨clear_append.2 ⟨hfront, ?_⟩, clear_indented h⟩
  apply clear_of_all
  split <;> decide

end TreeLang.Yaml.Scalar
