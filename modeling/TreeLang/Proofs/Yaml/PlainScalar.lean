import TreeLang.Proofs.Yaml.Cursor
import TreeLang.Yaml.Token.Scalar

/-!
# Reading plain scalars

A text that may be written plainly is read back as it is. It ends where an indicator comes, or with
its line, when the next line starts left of the margin or another document follows.
-/

set_option autoImplicit false

namespace TreeLang.Yaml.Scalar

open Read
open Cursor (At)

/-! ## Words and gaps -/

theorem head?_dropWhile_eq_false (p : Char → Bool) (cs : List Char) :
    ∀ c ∈ (cs.dropWhile p).head?, p c = false := by
  intro c hc
  have h := List.head?_dropWhile_not p cs
  rw [Option.mem_def.1 hc] at h
  exact h

/-- A text is a word, or a word, a gap and a text that does not start with a gap. -/
theorem words_cases (p : Char → Bool) (cs : List Char) :
    (∀ c ∈ cs, p c = false) ∨ ∃ w gap ds, cs = w ++ (gap ++ ds) ∧ (∀ c ∈ w, p c = false) ∧
      gap ≠ [] ∧ (∀ c ∈ gap, p c = true) ∧ ∀ c ∈ ds.head?, p c = false := by
  have hsplit := List.takeWhile_append_dropWhile (p := fun c => !p c) (l := cs)
  have hword : ∀ c ∈ cs.takeWhile fun c => !p c, p c = false := by
    intro c hc
    simpa using List.all_eq_true.1 List.all_takeWhile c hc
  have hfirst := head?_dropWhile_eq_false (fun c => !p c) cs
  cases htail : cs.dropWhile fun c => !p c with
  | nil =>
    rw [htail, List.append_nil] at hsplit
    exact Or.inl (hsplit ▸ hword)
  | cons d tail =>
    rw [htail] at hfirst hsplit
    have hd : p d = true := by simpa using hfirst d rfl
    refine Or.inr ⟨_, (d :: tail).takeWhile p, (d :: tail).dropWhile p, ?_, hword, ?_,
      List.all_eq_true.1 List.all_takeWhile, head?_dropWhile_eq_false p _⟩
    · rw [List.takeWhile_append_dropWhile, hsplit]
    · rw [List.takeWhile_cons_of_pos hd]
      exact List.cons_ne_nil _ _

/-- Induction on the words of a text. -/
theorem words_induction (p : Char → Bool) {motive : List Char → Prop}
    (word : ∀ w, (∀ c ∈ w, p c = false) → motive w)
    (step : ∀ w gap cs, (∀ c ∈ w, p c = false) → gap ≠ [] → (∀ c ∈ gap, p c = true) →
      (∀ c ∈ cs.head?, p c = false) → motive cs → motive (w ++ (gap ++ cs))) (cs : List Char) :
    motive cs := by
  induction hn : cs.length using Nat.strong_induction_on generalizing cs with
  | h n ih =>
    rcases words_cases p cs with hw | ⟨w, gap, ds, rfl, hw, hne, hgap, hds⟩
    · exact word cs hw
    · -- what comes after a gap is shorter, since a gap is not empty
      have hpos := List.length_pos_iff.2 hne
      simp only [List.length_append] at hn
      exact step w gap ds hw hne hgap hds (ih ds.length (by omega) ds rfl)

/-! ## Gaps -/

/-- Whether a character is a space or ends a line. -/
def isFiller (c : Char) : Bool := c == ' ' || isBreak c

namespace Gap

/-- The gap with one more character. -/
def past (g : Gap) (c : Char) : Gap :=
  if isBreak c then
    (if g.broken then { g with more := g.more ++ [c] }
      else { spaces := [], first := [c], broken := true })
  else if g.broken then g
  else { g with spaces := g.spaces ++ [c] }

end Gap

/-- The gap with more characters. -/
def Gap.over (g : Gap) (cs : List Char) : Gap := cs.foldl Gap.past g

theorem mem_spaces {n : Nat} {ch : Char} (h : ch ∈ Style.spaces n) : ch = ' ' :=
  List.eq_of_mem_replicate h

theorem Mark.column_over_spaces (n : Nat) (m : Mark) :
    (m.over (Style.spaces n)).column = m.column + n := by
  rw [Mark.over_line fun ch hch => by rw [mem_spaces hch]; rfl]
  show m.column + (Style.spaces n).length = _
  rw [Style.spaces, List.length_replicate]

theorem Gap.over_spaces (n : Nat) : ∀ {g : Gap}, g.broken = false →
    g.over (Style.spaces n) = { g with spaces := g.spaces ++ Style.spaces n } := by
  induction n with
  | zero =>
    intro g _
    show g = _
    rw [Style.spaces, List.replicate_zero, List.append_nil]
  | succ n ih =>
    intro g hg
    have hpast : g.past ' ' = { g with spaces := g.spaces ++ [' '] } := by
      unfold Gap.past
      rw [if_neg (by decide), hg]
      rfl
    show (g.past ' ').over (Style.spaces n) = _
    rw [hpast, ih (g := { g with spaces := g.spaces ++ [' '] }) hg]
    show _ = { g with spaces := g.spaces ++ ' ' :: Style.spaces n }
    rw [List.append_assoc]
    rfl

/-- After a break, spaces do not count. -/
theorem Gap.over_spaces_of_broken (n : Nat) {g : Gap} (hg : g.broken = true) :
    g.over (Style.spaces n) = g := by
  induction n with
  | zero => rfl
  | succ n ih =>
    have hpast : g.past ' ' = g := by
      unfold Gap.past
      rw [if_neg (by decide), hg]
      rfl
    show (g.past ' ').over (Style.spaces n) = g
    rw [hpast]
    exact ih

theorem isSpaceOrTab_space : isSpaceOrTab ' ' = true := by decide

theorem isBreak_space : isBreak ' ' = false := by decide

theorem isSpaceOrTab_of_isBreak {ch : Char} (h : isBreak ch = true) : isSpaceOrTab ch = false := by
  cases hs : isSpaceOrTab ch with
  | false => rfl
  | true =>
    simp only [isSpaceOrTab, Bool.or_eq_true, beq_iff_eq] at hs
    rcases hs with rfl | rfl
    · exact absurd h (by decide)
    · exact absurd h (by decide)

/-- A run of spaces and line breaks is read to its end. -/
theorem leads_readGap {b : Prop} {N : Nat} {start : Mark} {margin : Option Int} {rest gap : List Char}
    (hgap : ∀ ch ∈ gap, isFiller ch = true)
    (hstop : isSpaceOrTab (rest.headD endChar) = false ∧ isBreak (rest.headD endChar) = false) :
    ∀ {c : Cursor} {m : Mark} {fuel : Nat} {g : Gap}, At N c (gap ++ rest) m 1 → gap.length < fuel →
      Leads b (readGap start margin fuel g) c fun a c' => a = g.over gap ∧ At N c' rest (m.over gap) 1 := by
  induction gap with
  | nil =>
    intro c m fuel g h hfuel
    cases fuel with
    | zero => cases hfuel
    | succ fuel =>
      have hahead : c.ahead 0 = rest.headD endChar := h.headD
      unfold readGap
      simp only [leads_bind, leads_peek, hahead, hstop.1, hstop.2, Bool.false_eq_true, if_false,
        leads_pure]
      exact ⟨rfl, h⟩
  | cons ch gap ih =>
    intro c m fuel g h hfuel
    have htail : ∀ d ∈ gap, isFiller d = true := fun d hd => hgap d (List.mem_cons_of_mem _ hd)
    cases fuel with
    | zero => cases hfuel
    | succ fuel =>
      have hahead : c.ahead 0 = ch := h.ahead Nat.one_pos
      have hfuel' : gap.length < fuel := Nat.lt_of_succ_lt_succ hfuel
      unfold readGap
      simp only [leads_bind, leads_peek, hahead]
      have hch := hgap ch List.mem_cons_self
      -- a filler is a break or a space, and a tab is neither
      by_cases hb : isBreak ch = true
      · have hpast : g.past ch = if g.broken then { g with more := g.more ++ [ch] }
            else { spaces := [], first := [ch], broken := true } := if_pos hb
        simp only [isSpaceOrTab_of_isBreak hb, hb, Bool.false_eq_true, if_false, if_true, leads_bind]
        refine (leads_takeBreak h hb).mono fun a c' hc => ?_
        refine (leads_need hc.2 1).mono fun _ c'' hc'' => ?_
        rw [hc.1, ← hpast]
        exact ih htail hc''.1 hfuel'
      · have hsp : ch = ' ' := by simpa [isFiller, hb] using hch
        subst hsp
        have hpast : g.past ' ' = if g.broken then g else { g with spaces := g.spaces ++ [' '] } :=
          if_neg hb
        have htab : (' ' == '\t') = false := by decide
        simp only [isSpaceOrTab_space, htab, Bool.and_false, Bool.false_and, Bool.false_eq_true, if_true,
          if_false, leads_bind, leads_mark, leads_skip]
        refine (leads_need (h.skip isBreak_space) 1).mono fun _ c' hc => ?_
        rw [← hpast]
        exact ih htail hc.1 hfuel'

/-! ## Words -/

/-- Whether a plain scalar stops in front of a text. -/
def stopsPlain (inFlow : Bool) (rest : List Char) : Bool :=
  isGap (rest.headD endChar) || endsPlain inFlow (rest.headD endChar) (rest.getD 1 endChar)

/-- Whether a word goes on to its end inside a plain scalar that `rest` follows. -/
def Unstopped (inFlow : Bool) : List Char → List Char → Prop
  | [], _ => True
  | c :: w, rest => stopsPlain inFlow (c :: (w ++ rest)) = false ∧ Unstopped inFlow w rest

theorem isGap_of_stopsPlain {inFlow : Bool} {c : Char} {rest : List Char}
    (h : stopsPlain inFlow (c :: rest) = false) : isGap c = false :=
  (Bool.or_eq_false_iff.1 h).1

theorem isBreak_of_isGap {c : Char} (h : isGap c = false) : isBreak c = false :=
  (Bool.or_eq_false_iff.1 (Bool.or_eq_false_iff.1 h).1).2

theorem isSpaceOrTab_of_isGap {c : Char} (h : isGap c = false) : isSpaceOrTab c = false :=
  (Bool.or_eq_false_iff.1 (Bool.or_eq_false_iff.1 h).1).1

theorem Unstopped.isGap {inFlow : Bool} {rest : List Char} : ∀ {w : List Char},
    Unstopped inFlow w rest → ∀ c ∈ w, isGap c = false := by
  intro w
  induction w with
  | nil =>
    intro _ c hc
    cases hc
  | cons d w ih =>
    rintro ⟨hd, hw⟩ c hc
    rcases List.mem_cons.1 hc with rfl | hc
    · exact isGap_of_stopsPlain hd
    · exact ih hw c hc

/-- A word of a plain scalar is read to its end, with the gap in front of it. -/
theorem leads_readPlainRun {b : Prop} {N : Nat} {inFlow : Bool} {rest w : List Char}
    (hstop : stopsPlain inFlow rest = true) :
    ∀ {c : Cursor} {m : Mark} {fuel : Nat} {s : PlainState}, Unstopped inFlow w rest →
      At N c (w ++ rest) m 2 → w.length < fuel →
      Leads b (readPlainRun inFlow fuel s) c fun s' c' =>
        At N c' rest (m.over w) 2 ∧ (w = [] → s' = s) ∧
          (w ≠ [] → s'.acc = w.reverse ++ onto s.gap.folded s.acc ∧ s'.gap = {}) := by
  induction w with
  | nil =>
    intro c m fuel s _ h hfuel
    cases fuel with
    | zero => cases hfuel
    | succ fuel =>
      unfold readPlainRun
      unfold stopsPlain at hstop
      simp only [leads_bind, leads_peek, leads_peekAt, h.headD, h.ahead Nat.one_lt_two,
        List.nil_append, if_pos hstop]
      exact ⟨h, fun _ => rfl, fun hne => absurd rfl hne⟩
  | cons ch w ih =>
    intro c m fuel s hw h hfuel
    cases fuel with
    | zero => cases hfuel
    | succ fuel =>
      obtain ⟨hgo, hw⟩ := hw
      have hfuel' : w.length < fuel := Nat.lt_of_succ_lt_succ hfuel
      simp only [stopsPlain, List.headD_cons] at hgo
      have hgap : isBreak ch = false := isBreak_of_isGap (Bool.or_eq_false_iff.1 hgo).1
      unfold readPlainRun
      simp only [leads_bind, leads_peek, leads_peekAt, h.headD, h.ahead Nat.one_lt_two,
        List.cons_append, hgo, Bool.false_eq_true, if_false, leads_skip, leads_mark, List.headD_cons]
      refine (leads_need (h.skip hgap) 2).mono fun _ c' hc => ?_
      -- the gap in front is put down with the first character, so the rest has none
      refine (ih hw hc.1 hfuel').mono fun s' c'' hc'' =>
        ⟨hc''.1, fun hnil => absurd hnil (List.cons_ne_nil _ _), fun _ => ?_⟩
      cases w with
      | nil =>
        obtain rfl := hc''.2.1 rfl
        exact ⟨rfl, rfl⟩
      | cons d w =>
        obtain ⟨hacc, hg⟩ := hc''.2.2 (List.cons_ne_nil _ _)
        refine ⟨?_, hg⟩
        rw [hacc, List.reverse_cons (a := ch), List.append_assoc]
        rfl

/-! ## Lines -/

/-- What is done after a word of a plain scalar: its gap is read, and the next word if the scalar
goes on. -/
def afterWord (start : Mark) (inFlow : Bool) (margin : Int) (fuel : Nat) (s : PlainState) :
    Read PlainState := do
  let c ← peek
  if !(isSpaceOrTab c || isBreak c) then return s
  need 1
  let gap ← readGap start (some margin) (← bound) s.gap
  let s := { s with gap := gap }
  if !inFlow && isLeftOf (some margin) (← mark) then return s
  readPlainLines start inFlow margin fuel s

theorem readPlainLines_succ (start : Mark) (inFlow : Bool) (margin : Int) (fuel : Nat)
    (s : PlainState) : readPlainLines start inFlow margin (fuel + 1) s = (do
      need 4
      if (← get).atDocumentMark || (← peek) == '#' then return s
      let s ← readPlainRun inFlow (← bound) s
      afterWord start inFlow margin fuel s) := rfl

/-- The texts that a plain scalar in front of `rest` can have: words with spaces between them. -/
inductive PlainText (inFlow : Bool) (rest : List Char) : List Char → Prop where
  | word {w : List Char} : w ≠ [] → w.head? ≠ some '#' → Unstopped inFlow w rest →
      PlainText inFlow rest w
  | cons {w cs : List Char} {n : Nat} : w ≠ [] → w.head? ≠ some '#' →
      Unstopped inFlow w (Style.spaces (n + 1) ++ (cs ++ rest)) → PlainText inFlow rest cs →
      PlainText inFlow rest (w ++ (Style.spaces (n + 1) ++ cs))

theorem PlainText.head_isGap {inFlow : Bool} {rest cs : List Char} (h : PlainText inFlow rest cs)
    (more : List Char) : isGap ((cs ++ more).headD endChar) = false := by
  cases h with
  | word hne _ hw =>
    cases cs with
    | nil => exact absurd rfl hne
    | cons c w => exact hw.isGap c List.mem_cons_self
  | @cons w ds n hne _ hw _ =>
    cases w with
    | nil => exact absurd rfl hne
    | cons c w => exact hw.isGap c List.mem_cons_self

/-- One word of a plain scalar is read. What comes after it is left to `afterWord`. -/
theorem leads_readPlainLines_succ {b : Prop} {N : Nat} {start : Mark} {inFlow : Bool} {margin : Int}
    {rest w : List Char} {Q : PlainState → Cursor → Prop} {c : Cursor} {m : Mark} {fuel : Nat}
    {s : PlainState} (hstop : stopsPlain inFlow rest = true) (hne : w ≠ [])
    (hhash : w.head? ≠ some '#') (hw : Unstopped inFlow w rest) (h : At N c (w ++ rest) m 0)
    (hmark : 0 < m.column ∨ Style.startsLikeMarker (w ++ rest) = false)
    (hend : ∀ {s' : PlainState} {c' : Cursor}, s'.acc = w.reverse ++ onto s.gap.folded s.acc →
      s'.gap = {} → At N c' rest (m.over w) 2 → Leads b (afterWord start inFlow margin fuel s') c' Q) :
    Leads b (readPlainLines start inFlow margin (fuel + 1) s) c Q := by
  rw [readPlainLines_succ]
  simp only [leads_bind, leads_get, leads_peek]
  refine (leads_need h 4).mono fun _ c' hc => ?_
  have hdocument : c'.atDocumentMark = false := by
    rw [hc.1.atDocumentMark]
    rcases hmark with hcol | hno
    · have hzero : (m.column == 0) = false := beq_eq_false_iff_ne.2 (Nat.ne_of_gt hcol)
      rw [hzero, Bool.false_and, Bool.false_and]
    · rw [hno, Bool.and_false]
  have hcomment : (c'.ahead 0 == '#') = false := by
    rw [hc.1.headD]
    cases w with
    | nil => exact absurd rfl hne
    | cons d w =>
      rw [beq_eq_false_iff_ne]
      rintro rfl
      exact hhash rfl
  have hroom := hc.1.room
  rw [List.length_append] at hroom
  simp only [hdocument, hcomment, Bool.or_false, Bool.false_eq_true, if_false, leads_bind, leads_bound]
  refine (leads_readPlainRun hstop hw (hc.1.mono (by omega)) (by omega)).mono fun s' c'' hc'' => ?_
  obtain ⟨hacc, hgap⟩ := hc''.2.2 hne
  exact hend hacc hgap hc''.1

/-- The spaces after a word are read as the gap in front of the next one. -/
theorem leads_afterWord_spaces {b : Prop} {N : Nat} {start : Mark} {inFlow : Bool} {margin : Int}
    {rest : List Char} {Q : PlainState → Cursor → Prop} {c : Cursor} {m : Mark} {n fuel : Nat}
    {s : PlainState} (hhead : isGap (rest.headD endChar) = false) (hgap : s.gap = {})
    (hcol : inFlow = true ∨ margin ≤ (m.column : Int)) (h : At N c (Style.spaces (n + 1) ++ rest) m 1)
    (hend : ∀ {s' : PlainState} {c' : Cursor}, s'.acc = s.acc →
      s'.gap.folded = Style.spaces (n + 1) → At N c' rest (m.over (Style.spaces (n + 1))) 1 →
      Leads b (readPlainLines start inFlow margin fuel s') c' Q) :
    Leads b (afterWord start inFlow margin fuel s) c Q := by
  have hlen : (Style.spaces (n + 1)).length = n + 1 := List.length_replicate
  have hfiller : ∀ ch ∈ Style.spaces (n + 1), isFiller ch = true := by
    intro ch hch
    rw [mem_spaces hch]
    rfl
  have hahead : c.ahead 0 = ' ' := h.headD
  unfold afterWord
  simp only [leads_bind, leads_peek, hahead, isSpaceOrTab_space, Bool.true_or, Bool.not_true,
    Bool.false_eq_true, if_false, leads_bound, leads_mark]
  refine (leads_need h 1).mono fun _ c₁ hc₁ => ?_
  have hroom := hc₁.1.room
  rw [List.length_append, hlen] at hroom
  refine (leads_readGap hfiller ⟨isSpaceOrTab_of_isGap hhead, isBreak_of_isGap hhead⟩ hc₁.1
    (by omega)).mono fun g c₂ hc₂ => ?_
  have hmargin : (!inFlow && isLeftOf (some margin) c₂.mark) = false := by
    rcases hcol with rfl | hcol
    · rfl
    · have hright : decide (((c₂.mark.column : Nat) : Int) < margin) = false := by
        rw [hc₂.2.mark, Mark.column_over_spaces]
        exact decide_eq_false (by omega)
      exact (congrArg _ hright).trans (Bool.and_false _)
  have hfolded : g.folded = Style.spaces (n + 1) := by
    rw [hc₂.1, hgap, Gap.over_spaces _ rfl]
    rfl
  rw [hmargin, if_neg Bool.false_ne_true]
  exact hend rfl hfolded hc₂.2

/-- The words of a plain scalar are read one after the other. What comes after the last one is left
to `afterWord`. -/
theorem leads_readPlainLines {b : Prop} {N : Nat} {start : Mark} {inFlow : Bool} {margin : Int}
    {rest cs : List Char} {Q : PlainState → Cursor → Prop} (hstop : stopsPlain inFlow rest = true)
    (hcs : PlainText inFlow rest cs) :
    ∀ {c : Cursor} {m : Mark} {fuel : Nat} {s : PlainState}, At N c (cs ++ rest) m 0 →
      (0 < m.column ∨ Style.startsLikeMarker (cs ++ rest) = false) →
      (inFlow = true ∨ margin ≤ (m.column : Int)) → cs.length + 1 < fuel →
      (∀ {s' : PlainState} {c' : Cursor} {fuel' : Nat}, 0 < fuel' →
        s'.acc = cs.reverse ++ onto s.gap.folded s.acc → s'.gap = {} → At N c' rest (m.over cs) 2 →
        Leads b (afterWord start inFlow margin fuel' s') c' Q) →
      Leads b (readPlainLines start inFlow margin fuel s) c Q := by
  induction hcs with
  | @word w hne hhash hw =>
    intro c m fuel s h hmark _ hfuel hend
    obtain ⟨fuel, rfl⟩ : ∃ n, fuel = n + 1 := ⟨fuel - 1, by omega⟩
    exact leads_readPlainLines_succ hstop hne hhash hw h hmark (hend (by omega))
  | @cons w cs n hne hhash hw hcs ih =>
    intro c m fuel s h hmark hcol hfuel hend
    obtain ⟨fuel, rfl⟩ : ∃ n, fuel = n + 1 := ⟨fuel - 1, by omega⟩
    have hlen : (Style.spaces (n + 1)).length = n + 1 := List.length_replicate
    rw [List.length_append, List.length_append, hlen] at hfuel
    rw [List.append_assoc, List.append_assoc] at h hmark
    -- a word stays on its line, so the columns only grow
    have hover : (m.over w).column = m.column + w.length := by
      rw [Mark.over_line fun ch hch => isBreak_of_isGap (hw.isGap ch hch)]
    refine leads_readPlainLines_succ rfl hne hhash hw h hmark fun {s' c'} hacc hgap hc => ?_
    refine leads_afterWord_spaces (hcs.head_isGap rest) hgap (hcol.imp_right fun hcol => by omega)
      (hc.mono (by omega)) fun {s₁ c₁} hacc₁ hfolded hc₁ => ?_
    refine ih (hc₁.mono (Nat.zero_le 1)) (Or.inl ?_) (hcol.imp_right fun hcol => ?_) (by omega)
      fun {s₂ c₂ fuel'} hfuel' hacc₂ hgap₂ hc₂ => hend hfuel' ?_ hgap₂ ?_
    · rw [Mark.column_over_spaces]
      omega
    · rw [Mark.column_over_spaces]
      omega
    · rw [hacc₂, hfolded, hacc₁, hacc, onto, List.reverse_append, List.reverse_append,
        List.append_assoc, List.append_assoc]
    · rw [Mark.over_append, Mark.over_append]
      exact hc₂

/-! ## Plain scalars -/

section

variable {b : Prop} {N : Nat} {inFlow : Bool} {margin : Int} {cs rest : List Char} {c : Cursor} {m : Mark}

/-- A plain scalar that an indicator follows stops in front of it. -/
theorem leads_readPlain_indicator (hcs : PlainText inFlow rest cs)
    (hstop : stopsPlain inFlow rest = true) (hhead : isGap (rest.headD endChar) = false)
    (h : At N c (cs ++ rest) m 0)
    (hmark : 0 < m.column ∨ Style.startsLikeMarker (cs ++ rest) = false)
    (hcol : inFlow = true ∨ margin ≤ (m.column : Int)) :
    Leads b (readPlain inFlow margin) c fun a c' =>
      a.1.kind = .scalar (Utf8.encode cs) true ∧ a.2 = false ∧ At N c' rest (m.over cs) 1 := by
  have hroom := h.room
  rw [List.length_append] at hroom
  unfold readPlain
  simp only [leads_bind, leads_mark, leads_bound, leads_pure]
  refine leads_readPlainLines hstop hcs h hmark hcol (by omega) fun {s c₁ fuel} _ hacc hgap hc => ?_
  have hahead : c₁.ahead 0 = rest.headD endChar := hc.headD
  unfold afterWord
  simp only [leads_bind, leads_peek, hahead, isSpaceOrTab_of_isGap hhead, isBreak_of_isGap hhead,
    Bool.or_false, Bool.not_false, if_true, leads_pure]
  refine ⟨?_, ?_, hc.mono (by omega)⟩
  · rw [hacc]
    show TokenKind.scalar (Utf8.encode (cs.reverse ++ []).reverse) true = _
    rw [List.append_nil, List.reverse_reverse]
  · rw [hgap]

/-- The gap after the last word of a line reaches to the first word of the next one. -/
theorem leads_afterWord_line {start : Mark} {n fuel : Nat} {s : PlainState}
    {Q : PlainState → Cursor → Prop}
    (hhead : isSpaceOrTab (rest.headD endChar) = false ∧ isBreak (rest.headD endChar) = false)
    (hgap : s.gap = {}) (h : At N c ('\n' :: (Style.spaces n ++ rest)) m 1)
    (hend : ∀ {s' : PlainState} {c' : Cursor}, s'.acc = s.acc → s'.gap.broken = true →
      At N c' rest ⟨m.index + 1 + n, m.line + 1, n⟩ 1 →
      Leads b (if !false && isLeftOf (some margin) c'.mark then pure s'
        else readPlainLines start false margin fuel s') c' Q) :
    Leads b (afterWord start false margin fuel s) c Q := by
  have hlen : (Style.spaces n).length = n := List.length_replicate
  have hahead : c.ahead 0 = '\n' := h.headD
  have hfiller : ∀ ch ∈ '\n' :: Style.spaces n, isFiller ch = true := by
    intro ch hch
    rcases List.mem_cons.1 hch with rfl | hch
    · rfl
    · rw [mem_spaces hch]
      rfl
  have hmark : m.over ('\n' :: Style.spaces n) = ⟨m.index + 1 + n, m.line + 1, n⟩ := by
    show (m.past '\n').over (Style.spaces n) = _
    rw [Mark.over_line (by intro ch hch; rw [mem_spaces hch]; rfl), hlen]
    show Mark.mk (m.index + 1 + n) (m.line + 1) (0 + n) = _
    rw [Nat.zero_add]
  have hfeed : isBreak '\n' = true := by decide
  unfold afterWord
  simp only [leads_bind, leads_peek, hahead, hfeed, Bool.or_true, Bool.not_true, Bool.false_eq_true,
    if_false, leads_bound, leads_mark]
  refine (leads_need h 1).mono fun _ c₁ hc₁ => ?_
  have hroom := hc₁.1.room
  rw [List.length_cons, List.length_append] at hroom
  have htext : At N c₁ (('\n' :: Style.spaces n) ++ rest) m 1 := hc₁.1
  refine (leads_readGap hfiller hhead htext (by rw [List.length_cons]; omega)).mono fun g c₂ hc₂ => ?_
  rw [hmark] at hc₂
  refine hend rfl ?_ hc₂.2
  show g.broken = true
  rw [hc₂.1, hgap]
  show ((({} : Gap).past '\n').over (Style.spaces n)).broken = true
  rw [Gap.over_spaces_of_broken n rfl]
  rfl

theorem stopsPlain_feed (inFlow : Bool) (rest : List Char) :
    stopsPlain inFlow ('\n' :: rest) = true := rfl

/-- A plain scalar ends with its line when the next line starts left of the margin. -/
theorem leads_readPlain_line {n : Nat} (hcs : PlainText false ('\n' :: (Style.spaces n ++ rest)) cs)
    (hhead : isSpaceOrTab (rest.headD endChar) = false ∧ isBreak (rest.headD endChar) = false)
    (h : At N c (cs ++ '\n' :: (Style.spaces n ++ rest)) m 0) (hmark : 0 < m.column)
    (hcol : margin ≤ (m.column : Int)) (hleft : (n : Int) < margin) :
    Leads b (readPlain false margin) c fun a c' =>
      a.1.kind = .scalar (Utf8.encode cs) true ∧ a.2 = true ∧
        ∃ m', m'.column = n ∧ At N c' rest m' 1 := by
  have hroom := h.room
  rw [List.length_append] at hroom
  unfold readPlain
  simp only [leads_bind, leads_mark, leads_bound, leads_pure]
  refine leads_readPlainLines (stopsPlain_feed _ _) hcs h (Or.inl hmark) (Or.inr hcol) (by omega)
    fun {s c₁ fuel} _ hacc hgap hc => ?_
  -- the gap reaches to the next line, which is left of the margin
  refine leads_afterWord_line hhead hgap (hc.mono (by omega)) fun {s' c₂} hacc' hbroken hc₂ => ?_
  have hmargin : (!false && isLeftOf (some margin) c₂.mark) = true := by
    rw [hc₂.mark]
    exact decide_eq_true hleft
  rw [if_pos hmargin, leads_pure]
  refine ⟨?_, hbroken, _, rfl, hc₂⟩
  rw [hacc', hacc]
  show TokenKind.scalar (Utf8.encode (cs.reverse ++ []).reverse) true = _
  rw [List.append_nil, List.reverse_reverse]

/-- At the start of a line, a plain scalar ends where the text does or where a document ends. -/
theorem leads_readPlainLines_end {start : Mark} {fuel : Nat} {s : PlainState}
    (hrest : rest = [] ∨ Style.startsLikeMarker rest = true ∧ isGap (rest.getD 3 endChar) = true)
    (hcol : m.column = 0) (h : At N c rest m 1) :
    Leads b (readPlainLines start false margin (fuel + 1) s) c fun s' c' => s' = s ∧ At N c' rest m 1 := by
  rw [readPlainLines_succ]
  simp only [leads_bind, leads_get, leads_peek]
  refine (leads_need h 4).mono fun _ c₁ hc₁ => ?_
  have hdocument := hc₁.1.atDocumentMark
  rcases hrest with rfl | ⟨hmarker, hgap⟩
  · have hahead : c₁.ahead 0 = endChar := hc₁.1.headD
    have hhash : (endChar == '#') = false := by decide
    have hroom := hc₁.1.room
    simp only [hdocument, Style.startsLikeMarker, Bool.and_false, hahead, hhash, Bool.or_false,
      Bool.false_eq_true, if_false, leads_bind, leads_bound]
    refine (leads_readPlainRun (w := []) rfl trivial (hc₁.1.mono (by omega))
      (by simp only [List.length_nil] at hroom ⊢; omega)).mono fun s' c₂ hc₂ => ?_
    obtain rfl := hc₂.2.1 rfl
    have hahead₂ : c₂.ahead 0 = endChar := hc₂.1.headD
    unfold afterWord
    simp only [leads_bind, leads_peek, hahead₂]
    exact ⟨rfl, hc₂.1.mono (by omega)⟩
  · rw [hmarker, hgap, hcol] at hdocument
    simp only [hdocument, beq_self_eq_true, Bool.and_true, Bool.true_or, if_true, leads_pure]
    exact ⟨trivial, hc₁.2⟩

/-- A plain scalar by itself ends with its line when the text or the document ends there. -/
theorem leads_readPlain_root (hcs : PlainText false ('\n' :: rest) cs)
    (hrest : rest = [] ∨ Style.startsLikeMarker rest = true ∧ isGap (rest.getD 3 endChar) = true)
    (h : At N c (cs ++ '\n' :: rest) m 0)
    (hmark : Style.startsLikeMarker (cs ++ '\n' :: rest) = false) :
    Leads b (readPlain false 0) c fun a c' =>
      a.1.kind = .scalar (Utf8.encode cs) true ∧ a.2 = true ∧
        ∃ m', m'.column = 0 ∧ At N c' rest m' 1 := by
  have hroom := h.room
  rw [List.length_append] at hroom
  have hhead : isSpaceOrTab (rest.headD endChar) = false ∧ isBreak (rest.headD endChar) = false := by
    rcases hrest with rfl | ⟨hmarker, -⟩
    · exact ⟨rfl, rfl⟩
    · unfold Style.startsLikeMarker at hmarker
      split at hmarker
      · exact ⟨rfl, rfl⟩
      · exact ⟨rfl, rfl⟩
      · cases hmarker
  unfold readPlain
  simp only [leads_bind, leads_mark, leads_bound, leads_pure]
  refine leads_readPlainLines (stopsPlain_feed _ _) hcs h (Or.inr hmark) (Or.inr (by omega)) (by omega)
    fun {s c₁ fuel} hfuel hacc hgap hc => ?_
  refine leads_afterWord_line (n := 0) hhead hgap (hc.mono (by omega)) fun {s' c₂} hacc' hbroken hc₂ => ?_
  have hmargin : (!false && isLeftOf (some 0) c₂.mark) = false := by
    rw [hc₂.mark]
    rfl
  obtain ⟨fuel, rfl⟩ : ∃ n, fuel = n + 1 := ⟨fuel - 1, by omega⟩
  rw [hmargin, if_neg Bool.false_ne_true]
  refine (leads_readPlainLines_end hrest rfl hc₂).mono ?_
  rintro _ c₃ ⟨rfl, hc₃⟩
  refine ⟨?_, hbroken, _, rfl, hc₃⟩
  rw [hacc', hacc]
  show TokenKind.scalar (Utf8.encode (cs.reverse ++ []).reverse) true = _
  rw [List.append_nil, List.reverse_reverse]

end

/-! ## Texts that are allowed to be plain -/

theorem unstopped_of_forall {inFlow : Bool} {rest : List Char} : ∀ {w : List Char},
    (∀ pre c post, w = pre ++ c :: post → stopsPlain inFlow (c :: (post ++ rest)) = false) →
    Unstopped inFlow w rest := by
  intro w
  induction w with
  | nil => exact fun _ => trivial
  | cons d w ih =>
    intro h
    refine ⟨h [] d w rfl, ih fun pre c post heq => h (d :: pre) c post ?_⟩
    rw [heq]
    rfl

theorem eq_spaces {gap : List Char} (hne : gap ≠ []) (h : ∀ c ∈ gap, (c == ' ') = true) :
    ∃ n, gap = Style.spaces (n + 1) := by
  have hlen := List.length_pos_iff.2 hne
  refine ⟨gap.length - 1, ?_⟩
  rw [Nat.sub_add_cancel hlen]
  exact List.eq_replicate_of_mem fun c hc => by simpa using h c hc

/-- A text is that of a plain scalar when it neither starts nor ends with a space, no character but
a space stops it, and no comment starts in it. -/
theorem plainText_of_forall {inFlow : Bool} {rest : List Char} : ∀ cs : List Char, cs ≠ [] →
    cs.head? ≠ some ' ' → cs.getLast? ≠ some ' ' → cs.head? ≠ some '#' →
    (∀ pre post, cs ≠ pre ++ ' ' :: '#' :: post) →
    (∀ pre c post, cs = pre ++ c :: post → c ≠ ' ' →
      stopsPlain inFlow (c :: (post ++ rest)) = false) →
    PlainText inFlow rest cs := by
  refine words_induction (· == ' ') ?_ ?_
  · intro w hw hne _ _ hhash _ hgo
    refine .word hne hhash (unstopped_of_forall fun pre c post heq => hgo pre c post heq ?_)
    rintro rfl
    exact absurd (hw ' ' (heq ▸ List.mem_append_right _ List.mem_cons_self)) (by decide)
  · intro w gap cs hw hgap hspace hcs ih _ hhead hlast hhash hcomment hgo
    obtain ⟨n, rfl⟩ := eq_spaces hgap hspace
    have hwne : w ≠ [] := by
      rintro rfl
      exact hhead rfl
    -- the text does not end with the gap, so another word follows
    have hcsne : cs ≠ [] := by
      rintro rfl
      refine hlast ?_
      rw [List.append_nil, List.getLast?_append, Style.spaces, List.getLast?_replicate]
      rfl
    have hwhash : w.head? ≠ some '#' := by
      cases w with
      | nil => exact absurd rfl hwne
      | cons d w => exact hhash
    refine .cons hwne hwhash (unstopped_of_forall fun pre c post heq => ?_)
      (ih hcsne ?_ ?_ ?_ ?_ ?_)
    · have hc : c ≠ ' ' := by
        rintro rfl
        exact absurd (hw ' ' (heq ▸ List.mem_append_right _ List.mem_cons_self)) (by decide)
      have h := hgo pre c (post ++ (Style.spaces (n + 1) ++ cs)) (by rw [heq]; simp) hc
      rwa [List.append_assoc, List.append_assoc] at h
    · intro h
      exact absurd (hcs ' ' h) (by decide)
    · rwa [List.getLast?_append, List.getLast?_append, List.getLast?_eq_some_getLast hcsne, Option.some_or,
        Option.some_or, ← List.getLast?_eq_some_getLast hcsne] at hlast
    · intro h
      obtain ⟨tail, rfl⟩ : ∃ tail, cs = '#' :: tail := by
        cases cs with
        | nil => cases h
        | cons d tail => exact ⟨tail, by rw [Option.some.inj h]⟩
      refine hcomment (w ++ Style.spaces n) tail ?_
      rw [Style.spaces, List.replicate_succ', List.append_assoc, List.append_assoc]
      rfl
    · intro pre post heq
      refine hcomment (w ++ (Style.spaces (n + 1) ++ pre)) post ?_
      rw [heq, List.append_assoc, List.append_assoc]
    · intro pre c post heq hc
      refine hgo (w ++ (Style.spaces (n + 1) ++ pre)) c post ?_ hc
      rw [heq, List.append_assoc, List.append_assoc]

open Style (Spot spotsFrom spots)

/-- Whether a space, a tab or the end follows. -/
def endsWord (post : List Char) : Bool := (post.head?.map isSpaceOrTab).getD true

/-- Every character of a text is at a spot of it. -/
theorem mem_spotsFrom (pre post : List Char) (c : Char) : ∀ isFirst afterGap : Bool,
    (⟨c, isFirst && pre.isEmpty, (pre.getLast?.map isGap).getD afterGap, endsWord post⟩ : Spot) ∈
      spotsFrom isFirst afterGap (pre ++ c :: post) := by
  induction pre with
  | nil =>
    intro isFirst afterGap
    rw [List.isEmpty_nil, Bool.and_true]
    exact List.mem_cons_self
  | cons d pre ih =>
    intro isFirst afterGap
    have h := ih false (isGap d)
    -- what stands before a character is the last of `pre`, or else what stood before the text
    have hgap : ((d :: pre).getLast?.map isGap).getD afterGap =
        (pre.getLast?.map isGap).getD (isGap d) := by
      rw [List.getLast?_cons]
      cases pre.getLast? <;> rfl
    rw [hgap, List.isEmpty_cons, Bool.and_false]
    exact List.mem_cons_of_mem _ h

/-- What the rule for plain scalars asks of a text. -/
structure PlainRule (inFlow : Bool) (cs : List Char) : Prop where
  marker : Style.startsLikeMarker cs = false
  spot : ∀ s ∈ spots cs,
    (if inFlow then Spot.isFlowIndicator s else Spot.isBlockIndicator s) = false
  head : cs.head? ≠ some ' '
  last : cs.getLast? ≠ some ' '
  isBreak : ∀ c ∈ cs, isBreak c = false
  tab : '\t' ∉ cs
  clear : Clear cs

theorem plainRule_of_allowsPlain {inFlow : Bool} {cs : List Char}
    (h : Style.allowsPlain inFlow cs = true) : PlainRule inFlow cs := by
  simp only [Style.allowsPlain, Bool.not_eq_true', Bool.or_eq_false_iff, List.any_eq_false] at h
  obtain ⟨⟨⟨⟨⟨⟨⟨hmarker, hspot⟩, hhead⟩, hlast⟩, hbreak⟩, htab⟩, hclear⟩, -⟩ := h
  refine ⟨hmarker, fun s hs => ?_, ?_, ?_, fun c hc => ?_, ?_, fun c hc => ?_⟩
  · have := hspot s hs
    cases inFlow <;> simpa using this
  · intro heq
    rw [Style.startsIn, heq] at hhead
    exact absurd hhead (by decide)
  · intro heq
    rw [Style.endsIn, heq] at hlast
    exact absurd hlast (by decide)
  · simpa using hbreak c hc
  · simpa using htab
  · simpa using hclear c hc

theorem leading_eq : Style.leading =
    ['#', ',', '[', ']', '\x7b', '\x7d', '&', '*', '!', '|', '>', '\'', '"', '%', '@', '\x60'] := by
  rfl

theorem enclosing_eq : Style.enclosing = [',', '?', '[', ']', '\x7b', '\x7d'] := by
  rfl

/-- Each of the characters that end a plain scalar in a flow collection is an indicator there. -/
theorem flow_of_spot {s : Spot} (h : s.isFlowIndicator = false) (d : Char) :
    endsPlain true s.char d = false := by
  obtain ⟨c, isFirst, afterGap, ends⟩ := s
  cases hend : endsPlain true c d with
  | false => rfl
  | true =>
    have hc : c ∈ [':', ',', '?', '[', ']', '\x7b', '\x7d'] := by
      simp only [endsPlain, Bool.true_and, Bool.or_eq_true, Bool.and_eq_true, beq_iff_eq] at hend
      simp only [List.mem_cons, List.not_mem_nil, or_false]
      rcases hend with ⟨h, -⟩ | ((((h | h) | h) | h) | h) | h <;> simp [h]
    have hall : ∀ c ∈ [':', ',', '?', '[', ']', '\x7b', '\x7d'], ∀ isFirst afterGap ends : Bool,
        (⟨c, isFirst, afterGap, ends⟩ : Spot).isFlowIndicator = true := by
      unfold Spot.isFlowIndicator
      rw [leading_eq, enclosing_eq]
      simp only [List.forall_mem_cons, List.not_mem_nil, false_implies, implies_true, and_true]
      decide
    exact absurd (h.symm.trans (hall c hc isFirst afterGap ends)) Bool.false_ne_true

theorem block_of_spot {s : Spot} (h : s.isBlockIndicator = false) (hc : s.char = ':') :
    s.endsWord = false := by
  obtain ⟨c, isFirst, afterGap, ends⟩ := s
  obtain rfl : c = ':' := hc
  have hall : ∀ isFirst afterGap : Bool,
      (⟨':', isFirst, afterGap, true⟩ : Spot).isBlockIndicator = true := by
    unfold Spot.isBlockIndicator
    rw [leading_eq]
    decide
  cases ends with
  | false => rfl
  | true => exact absurd (h.symm.trans (hall isFirst afterGap)) Bool.false_ne_true

theorem hash_of_spot {inFlow : Bool} {s : Spot} (hc : s.char = '#')
    (h : (if inFlow then Spot.isFlowIndicator s else Spot.isBlockIndicator s) = false) :
    s.isFirst = false ∧ s.afterGap = false := by
  obtain ⟨c, isFirst, afterGap, ends⟩ := s
  obtain rfl : c = '#' := hc
  have hall : ∀ inFlow isFirst afterGap ends : Bool,
      (if inFlow then Spot.isFlowIndicator ⟨'#', isFirst, afterGap, ends⟩
        else Spot.isBlockIndicator ⟨'#', isFirst, afterGap, ends⟩) = false →
      isFirst = false ∧ afterGap = false := by
    unfold Spot.isFlowIndicator Spot.isBlockIndicator
    rw [leading_eq, enclosing_eq]
    decide
  exact hall inFlow isFirst afterGap ends h

namespace PlainRule

variable {inFlow : Bool} {cs : List Char}

theorem isGap_eq (h : PlainRule inFlow cs) {c : Char} (hc : c ∈ cs) : isGap c = (c == ' ') := by
  have htab : (c == '\t') = false := beq_eq_false_iff_ne.2 fun heq => h.tab (heq ▸ hc)
  have hend : (c == endChar) = false := beq_eq_false_iff_ne.2 (ne_endChar (h.clear c hc))
  unfold isGap isSpaceOrTab
  rw [h.isBreak c hc, htab, hend, Bool.or_false, Bool.or_false, Bool.or_false]

theorem spot_at (h : PlainRule inFlow cs) (pre : List Char) {post : List Char} {c : Char}
    (heq : cs = pre ++ c :: post) : ∃ s : Spot, s.char = c ∧ s.isFirst = pre.isEmpty ∧
      s.afterGap = (pre.getLast?.map isGap).getD true ∧ s.endsWord = endsWord post ∧
      (if inFlow then Spot.isFlowIndicator s else Spot.isBlockIndicator s) = false := by
  have hmem := mem_spotsFrom pre post c true true
  rw [← heq, Bool.true_and] at hmem
  exact ⟨_, rfl, rfl, rfl, rfl, h.spot _ hmem⟩

/-- Where no word ends, a character that is no gap follows, whatever comes after the text. -/
theorem isGap_next (h : PlainRule inFlow cs) (pre : List Char) {post : List Char} {c : Char}
    (heq : cs = pre ++ c :: post) (hends : endsWord post = false) (rest : List Char) :
    isGap ((post ++ rest).headD endChar) = false := by
  cases post with
  | nil => cases hends
  | cons d post =>
    have hd : d ∈ cs := heq ▸ List.mem_append_right _ (List.mem_cons_of_mem _ List.mem_cons_self)
    have hblank : isSpaceOrTab d = false := hends
    have hspace : (d == ' ') = false := (Bool.or_eq_false_iff.1 hblank).1
    exact (h.isGap_eq hd).trans hspace

/-- No character of a text that may be plain ends the scalar. Outside flow collections only a colon
with a gap behind it would. -/
theorem stopsPlain_at (h : PlainRule inFlow cs) {pre post : List Char} {c : Char}
    (heq : cs = pre ++ c :: post) (hc : c ≠ ' ') (rest : List Char) :
    stopsPlain inFlow (c :: (post ++ rest)) = false := by
  have hmem : c ∈ cs := heq ▸ List.mem_append_right _ List.mem_cons_self
  have hgap : isGap c = false := (h.isGap_eq hmem).trans (beq_eq_false_iff_ne.2 hc)
  obtain ⟨s, rfl, -, -, hends, hind⟩ := h.spot_at _ heq
  have hnext : ∀ d, d = (post ++ rest).headD endChar → endsPlain inFlow s.char d = false := by
    rintro d rfl
    cases inFlow with
    | true => exact flow_of_spot hind _
    | false =>
      unfold endsPlain
      rw [Bool.false_and, Bool.or_false]
      by_cases hcolon : s.char = ':'
      · rw [h.isGap_next _ heq (hends ▸ block_of_spot hind hcolon), Bool.and_false]
      · rw [beq_eq_false_iff_ne.2 hcolon, Bool.false_and]
  unfold stopsPlain
  rw [List.headD_cons, hgap, Bool.false_or]
  refine hnext _ ?_
  cases post ++ rest <;> rfl

/-- A text that follows the rule is that of a plain scalar, whatever comes after it. -/
theorem plainText (h : PlainRule inFlow cs) (hne : cs ≠ []) (rest : List Char) :
    PlainText inFlow rest cs := by
  refine plainText_of_forall cs hne h.head h.last ?_ ?_
    fun pre c post heq hc => h.stopsPlain_at heq hc rest
  · intro hhash
    obtain ⟨r, rfl⟩ : ∃ r, cs = '#' :: r := by
      cases cs with
      | nil => cases hhash
      | cons d r => exact ⟨r, by rw [Option.some.inj hhash]⟩
    obtain ⟨s, hc, hfirst, -, -, hind⟩ := h.spot_at [] rfl
    exact absurd (hfirst.symm.trans (hash_of_spot hc hind).1) (by decide)
  · intro pre post heq
    have heq' : cs = (pre ++ [' ']) ++ '#' :: post := by
      rw [heq, List.append_assoc]
      rfl
    obtain ⟨s, hc, -, hgap, -, hind⟩ := h.spot_at _ heq'
    rw [(hash_of_spot hc hind).2, List.getLast?_append] at hgap
    exact absurd (hgap.trans rfl : false = true) Bool.false_ne_true

/-- What the first character of a plain scalar is not. -/
theorem first (h : PlainRule inFlow cs) {c : Char} {post : List Char} (heq : cs = c :: post)
    (rest : List Char) : c ∉ Style.leading ∧ (inFlow = true → c ≠ '?' ∧ c ≠ ':') ∧
      (c = '-' ∨ c = '?' ∨ c = ':' → isGap ((post ++ rest).headD endChar) = false) := by
  obtain ⟨s, rfl, hfirst, -, hends, hind⟩ := h.spot_at [] heq
  obtain ⟨c, isFirst, afterGap, ends⟩ := s
  obtain rfl : isFirst = true := hfirst
  obtain rfl : ends = endsWord post := hends
  cases inFlow with
  | true =>
    simp only [Spot.isFlowIndicator, if_true, Bool.or_eq_false_iff, Bool.and_eq_false_iff,
      beq_eq_false_iff_ne, List.contains_eq_mem, decide_eq_false_iff_not] at hind
    obtain ⟨⟨⟨hlead, hquestion⟩, hcolon⟩, hdash⟩ := hind
    refine ⟨hlead, fun _ => ⟨hquestion, hcolon⟩, fun hc => ?_⟩
    rcases hc with hc | hc | hc
    · exact h.isGap_next [] heq (hdash.resolve_left fun hne => hne hc) rest
    · exact absurd hc hquestion
    · exact absurd hc hcolon
  | false =>
    simp only [Spot.isBlockIndicator, Bool.false_eq_true, if_false, if_true, Bool.or_eq_false_iff,
      Bool.and_eq_false_iff, beq_eq_false_iff_ne, List.contains_eq_mem, decide_eq_false_iff_not] at hind
    obtain ⟨hlead, hmark⟩ := hind
    refine ⟨hlead, nofun, fun hc => h.isGap_next [] heq (hmark.resolve_left ?_) rest⟩
    rintro ⟨⟨hquestion, hcolon⟩, hdash⟩
    rcases hc with hc | hc | hc
    · exact hdash hc
    · exact hquestion hc
    · exact hcolon hc

end PlainRule

end TreeLang.Yaml.Scalar
