import TreeLang.Proofs.Session.Entries
import TreeLang.Proofs.Tree.Treeless
import TreeLang.Proofs.Yaml.Encoding

/-!
# Trees on one line

A session counts the brackets of a line, whatever they stand for. The tokens of a line that is read
to its end open no more brackets than they close, so the line is deeper than that only by the
brackets that are none of its tokens: those in scalars, comments, tags and the like (`strays`). A
line that is one tree is never a command or blank, since these denote no tree.
-/

set_option autoImplicit false

namespace TreeLang

open Yaml (Token TokenStream Source Placed flowDepth noted)

/-! ## Stray brackets -/

/-- Whether a bracket among the tokens starts at the character `i`. -/
def isBracketAt (ts : List Token) (i : Nat) : Bool :=
  ts.any fun t => t.kind.bracket?.isSome && t.start.index == i

/-- The characters that are none of the brackets among the tokens. -/
def strays (ts : List Token) (cs : List Char) : List Char :=
  (cs.zipIdx.filter fun p => !isBracketAt ts p.2).map (·.1)

/-- In every encoding a bracket is counted as its token is. -/
theorem bracketDepth_char (e : Source.Encoding) {k : Yaml.TokenKind} {c : Char} (h : k.bracket? = some c) :
    bracketDepth (e.char c) = k.depth := by
  unfold Yaml.TokenKind.bracket? at h
  split at h <;> cases h <;> cases e <;> decide

/-- The depth of an encoded text is that of its first character and of the rest. -/
theorem bracketDepth_encode_cons (e : Source.Encoding) (c : Char) (cs : List Char) :
    bracketDepth (e.encode (c :: cs)) = bracketDepth (e.char c) + bracketDepth (e.encode cs) :=
  bracketDepth_append _ _

/-- The brackets `bs` are, one after the other, those of the characters `cs`, numbered from `i` on,
that are marked. -/
structure Marks (mark : Nat → Bool) (i : Nat) (cs : List Char) (bs : List Token) : Prop where
  ordered : bs.Pairwise fun t u => t.start.index < u.start.index
  mark_iff : ∀ j, i ≤ j → (mark j ↔ ∃ b ∈ bs, b.start.index = j)
  low : ∀ b ∈ bs, i ≤ b.start.index
  written : ∀ b ∈ bs, ∃ c, b.kind.bracket? = some c ∧ cs[b.start.index - i]? = some c

namespace Marks

variable {mark : Nat → Bool} {i : Nat} {c : Char} {cs : List Char} {bs : List Token}

theorem eq_nil (h : Marks mark i [] bs) : bs = [] := by
  refine List.eq_nil_iff_forall_not_mem.2 fun b hb => ?_
  obtain ⟨c, -, hc⟩ := h.written b hb
  cases hc

/-- A bracket behind the first character is one of the rest. -/
theorem written_tail (h : Marks mark i (c :: cs) bs) {b : Token} (hb : b ∈ bs)
    (hlow : i + 1 ≤ b.start.index) :
    ∃ d, b.kind.bracket? = some d ∧ cs[b.start.index - (i + 1)]? = some d := by
  obtain ⟨d, hd, hget⟩ := h.written b hb
  rw [show b.start.index - i = b.start.index - (i + 1) + 1 by omega, List.getElem?_cons_succ] at hget
  exact ⟨d, hd, hget⟩

/-- The first character is no bracket. -/
theorem skip (h : Marks mark i (c :: cs) bs) (hi : ¬ mark i) : Marks mark (i + 1) cs bs := by
  have hlow : ∀ b ∈ bs, i + 1 ≤ b.start.index := by
    intro b hb
    have hle := h.low b hb
    have hne : b.start.index ≠ i := fun heq => hi ((h.mark_iff i le_rfl).2 ⟨b, hb, heq⟩)
    omega
  exact ⟨h.ordered, fun j hj => h.mark_iff j (by omega), hlow, fun b hb => h.written_tail hb (hlow b hb)⟩

/-- The first character is the first bracket. -/
theorem first (h : Marks mark i (c :: cs) bs) (hi : mark i) :
    ∃ b bs', bs = b :: bs' ∧ b.kind.bracket? = some c ∧ Marks mark (i + 1) cs bs' := by
  obtain ⟨b₀, hb₀, hb₀i⟩ := (h.mark_iff i le_rfl).1 hi
  cases bs with
  | nil => cases hb₀
  | cons b bs =>
    obtain ⟨hfirst, hordered⟩ := List.pairwise_cons.1 h.ordered
    have hbi : b.start.index = i := by
      rcases List.mem_cons.1 hb₀ with rfl | hmem
      · exact hb₀i
      · have hlt := hfirst b₀ hmem
        have hle := h.low b List.mem_cons_self
        omega
    obtain ⟨d, hd, hget⟩ := h.written b List.mem_cons_self
    rw [hbi, Nat.sub_self, List.getElem?_cons_zero] at hget
    obtain rfl : c = d := Option.some.inj hget
    have hlow : ∀ b' ∈ bs, i + 1 ≤ b'.start.index := fun b' hb' => hbi ▸ hfirst b' hb'
    refine ⟨b, bs, rfl, hd, hordered, fun j hj => ?_, hlow, fun b' hb' => ?_⟩
    · rw [h.mark_iff j (by omega), List.exists_mem_cons_iff]
      exact or_iff_right (by omega)
    · exact h.written_tail (List.mem_cons_of_mem b hb') (hlow b' hb')

/-- The brackets of characters are those that are marked and the others. -/
theorem bracketDepth_encode (e : Source.Encoding) (h : Marks mark i cs bs) :
    bracketDepth (e.encode cs) = flowDepth bs +
      bracketDepth (e.encode (((cs.zipIdx i).filter fun p => !mark p.2).map (·.1))) := by
  induction cs generalizing i bs with
  | nil =>
    rw [h.eq_nil]
    rfl
  | cons c cs ih =>
    rw [List.zipIdx_cons, List.filter_cons, bracketDepth_encode_cons]
    by_cases hi : mark i
    · obtain ⟨b, bs, rfl, hb, hbs⟩ := h.first hi
      rw [ih hbs, bracketDepth_char e hb, hi, Bool.not_true, if_neg Bool.false_ne_true]
      simp only [flowDepth, List.map_cons, List.sum_cons, add_assoc]
    · rw [ih (h.skip hi), Bool.eq_false_of_not_eq_true hi, Bool.not_false, if_pos rfl, List.map_cons,
        bracketDepth_encode_cons]
      dsimp only
      omega

end Marks

/-- Tokens that are no brackets do not count. -/
theorem flowDepth_filter (ts : List Token) :
    flowDepth (ts.filter (·.kind.bracket?.isSome)) = flowDepth ts := by
  induction ts with
  | nil => rfl
  | cons t ts ih =>
    have hcons : ∀ us : List Token, flowDepth (t :: us) = t.kind.depth + flowDepth us := fun us => by
      simp [flowDepth]
    rw [List.filter_cons, hcons]
    split
    · rw [hcons, ih]
    · rename_i hno
      rw [ih, Yaml.TokenKind.depth_eq_zero (Bool.eq_false_of_not_eq_true hno), zero_add]

/-- The brackets of a source are tokens or strays. -/
theorem bracketDepth_encode_strays (e : Source.Encoding) {src : Source} {lo hi : Nat} {ts : List Token}
    (h : Placed src lo hi (noted ts)) :
    bracketDepth (e.encode src.chars) = flowDepth ts + bracketDepth (e.encode (strays ts src.chars)) := by
  have hsub : ∀ b, b ∈ ts.filter (·.kind.bracket?.isSome) → b ∈ noted ts ∧ b.kind.bracket?.isSome := by
    intro b hb
    obtain ⟨hmem, hb⟩ := List.mem_filter.1 hb
    exact ⟨List.mem_filter.2 ⟨hmem, Bool.or_eq_true_iff.2 (Or.inl hb)⟩, hb⟩
  rw [← flowDepth_filter ts]
  refine Marks.bracketDepth_encode e ⟨?_, ?_, fun _ _ => Nat.zero_le _, ?_⟩
  · have hnoted : ts.filter (·.kind.bracket?.isSome) = (noted ts).filter (·.kind.bracket?.isSome) := by
      rw [noted, List.filter_filter]
      congr 1
      funext t
      cases hb : t.kind.bracket?.isSome <;> simp [Yaml.TokenKind.isNoted, hb]
    rw [hnoted, List.pairwise_filter]
    exact h.ordered.imp fun hlt hb _ => hlt hb
  · intro j _
    simp [isBracketAt, and_assoc]
  · intro b hb
    obtain ⟨c, hc⟩ := Option.isSome_iff_exists.1 (hsub b hb).2
    exact ⟨c, hc, h.written b (hsub b hb).1 c hc⟩

/-! ## The tokens of a text -/

/-- The tokens that a text has, up to the end of its stream. -/
def TokensOf (text : Text) (ts : List Token) : Prop :=
  (∃ n, ((TokenStream.ofSource (Source.ofBytes text)).handed n).1 = ts) ∧
    ∃ us t, ts = us ++ [t] ∧ t.kind = .streamEnd ∧ ∀ u ∈ us, u.kind ≠ .streamEnd

/-- A text has one list of tokens. -/
theorem TokensOf.unique {text : Text} {ts us : List Token} (hts : TokensOf text ts)
    (hus : TokensOf text us) : ts = us := by
  obtain ⟨⟨n, hn⟩, ts', t, rfl, ht, hts'⟩ := hts
  obtain ⟨⟨m, hm⟩, us', u, rfl, hu, hus'⟩ := hus
  have hn' : (TokenStream.ofSource (Source.ofBytes text)).handed n = (ts' ++ [t], _) := Prod.ext hn rfl
  have hm' : (TokenStream.ofSource (Source.ofBytes text)).handed m = (us' ++ [u], _) := Prod.ext hm rfl
  have hle := TokenStream.prefix_of_streamEnd hn' hm' hts' hu
  exact hle.eq_of_length (Nat.le_antisymm hle.length_le
    (TokenStream.prefix_of_streamEnd hm' hn' hus' ht).length_le)

/-- A byte order mark is no bracket. -/
theorem bracketDepth_announced (t : Text) : bracketDepth (Source.announced t).2.1 = bracketDepth t := by
  unfold Source.announced
  split <;> simp [bracketDepth]

/-- The brackets of a text that is read are stray ones and those of its tokens, which open no more
than they close. -/
theorem bracketDepth_of_readAll {text : Text} {trees : List Tree}
    (h : Tree.readAll (Source.ofBytes text) = .ok trees) :
    ∃ ts, TokensOf text ts ∧
      (Source.announced text).2.1 = (Source.announced text).1.encode (Source.ofBytes text).chars ∧
      (∀ t ∈ ts, ∀ c, t.kind.bracket? = some c → (Source.ofBytes text).chars[t.start.index]? = some c) ∧
      flowDepth ts ≤ 0 ∧
      bracketDepth text = flowDepth ts +
        bracketDepth ((Source.announced text).1.encode (strays ts (Source.ofBytes text).chars)) := by
  obtain ⟨n, us, t, s, hn, ht, hus, hdepth, htrouble⟩ := TreeStream.exists_handed_of_readAll h
  obtain ⟨-, hplaced⟩ :=
    TokenStream.placed_handed (Source.endChar_not_mem_chars_ofBytes text) hn htrouble
  have hts := hplaced.of_append
  have hmem : t ∈ noted (us ++ [t]) := by
    refine List.mem_filter.2 ⟨List.mem_append_right us List.mem_cons_self, ?_⟩
    rw [ht]
    rfl
  -- the end of the stream is among the tokens, so nothing of the text was left out
  have hencoded := (Source.encode_chars_ofBytes text).2 (hts.whole t hmem ht)
  have hend : flowDepth (us ++ [t]) = flowDepth us := by
    rw [Yaml.flowDepth_append]
    simp [flowDepth, ht, Yaml.TokenKind.depth]
  refine ⟨us ++ [t], ⟨⟨n, by rw [hn]⟩, us, t, rfl, ht, hus⟩, hencoded, ?_, hend ▸ hdepth, ?_⟩
  · intro u hu c hc
    refine hts.written u (List.mem_filter.2 ⟨hu, ?_⟩) c hc
    rw [Yaml.TokenKind.isNoted, hc]
    rfl
  · rw [← bracketDepth_announced text, hencoded]
    exact bracketDepth_encode_strays _ hts

/-! ## Blank ends -/

namespace Blank

open Utf8 (encode)

/-- No byte is lost by cutting a text into pieces. -/
theorem flatMap_pieceBytes (fuel : Nat) : ∀ t : Text, t.length ≤ fuel →
    (Utf8.piecesUpTo fuel t).flatMap pieceBytes = t := by
  induction fuel with
  | zero =>
    intro t ht
    obtain rfl := List.length_eq_zero_iff.1 (Nat.le_zero.1 ht)
    rfl
  | succ fuel ih =>
    intro t ht
    cases t with
    | nil => rfl
    | cons b r =>
      rw [List.length_cons] at ht
      rw [Utf8.piecesUpTo]
      cases hfirst : Utf8.first? (b :: r) with
      | none =>
        rw [List.flatMap_cons, ih r (by omega)]
        rfl
      | some p =>
        obtain ⟨c, rest⟩ := p
        have heq := Utf8.eq_append_of_first? hfirst
        have hpos := List.length_pos_iff.2 (Utf8.utf8EncodeChar_ne_nil c)
        have hlen := congrArg List.length heq
        rw [List.length_append, List.length_cons] at hlen
        rw [List.flatMap_cons, ih rest (by omega), heq]
        simp [pieceBytes, encode]

/-- Blank pieces are blank characters. -/
theorem exists_encode_of_blank {ps : List Utf8.Piece} (h : ∀ p ∈ ps, isBlankPiece p) :
    ∃ cs, ps.flatMap pieceBytes = encode cs ∧ ∀ c ∈ cs, isBlank c := by
  induction ps with
  | nil => exact ⟨[], rfl, List.forall_mem_nil _⟩
  | cons p ps ih =>
    obtain ⟨hp, hps⟩ := List.forall_mem_cons.1 h
    obtain ⟨cs, heq, hcs⟩ := ih hps
    cases p with
    | stray b => cases hp
    | char c =>
      refine ⟨c :: cs, ?_, List.forall_mem_cons.2 ⟨hp, hcs⟩⟩
      rw [List.flatMap_cons, heq, Utf8.encode_cons]
      simp [pieceBytes, encode]

/-- A text is what `trim` leaves of it, between blank characters. -/
theorem exists_eq_trim (t : Text) : ∃ before after, t = encode before ++ trim t ++ encode after ∧
    (∀ c ∈ before, isBlank c) ∧ ∀ c ∈ after, isBlank c := by
  have hpieces : (Utf8.pieces t).flatMap pieceBytes = t := flatMap_pieceBytes _ t (Nat.le_refl _)
  obtain ⟨before, hbefore, hblank⟩ := exists_encode_of_blank
    fun p (hp : p ∈ (Utf8.pieces t).takeWhile isBlankPiece) => List.mem_takeWhile_imp hp
  obtain ⟨after, hafter, hblank'⟩ := exists_encode_of_blank
    fun p (hp : p ∈ (((Utf8.pieces t).dropWhile isBlankPiece).reverse.takeWhile isBlankPiece).reverse) =>
      List.mem_takeWhile_imp (List.mem_reverse.1 hp)
  refine ⟨before, after, ?_, hblank, hblank'⟩
  rw [← hbefore, ← hafter, trim, ← List.flatMap_append, ← List.flatMap_append, List.append_assoc,
    ← List.reverse_append, List.takeWhile_append_dropWhile, List.reverse_reverse,
    List.takeWhile_append_dropWhile, hpieces]

end Blank

/-! ## Lines that denote no tree -/

section Lines

open Yaml (isBare BareChars isGap)

/-- The marks lie between the space and the letters, or just behind these. -/
theorem isBare_of_toNat {c : Char}
    (h : c.toNat < 0x21 ∨ (0x61 ≤ c.toNat ∧ c.toNat ≤ 0x7A) ∨ 0x7D < c.toNat) : isBare c := by
  have hcodes : TokenStream.indicators.map Char.toNat = [0x2D, 0x3F, 0x3A, 0x2C, 0x5B, 0x5D, 0x7B, 0x7D,
      0x23, 0x26, 0x2A, 0x21, 0x7C, 0x3E, 0x27, 0x22, 0x25, 0x40, 0x60] := by decide
  have hmark : TokenStream.indicators.contains c = false := by
    rw [← Bool.not_eq_true, List.contains_iff_mem]
    intro hmem
    have hcode := List.mem_map_of_mem (f := Char.toNat) hmem
    rw [hcodes] at hcode
    simp only [List.mem_cons, List.not_mem_nil, or_false] at hcode
    omega
  have hpoint : (c == '.') = false := by
    rw [beq_eq_false_iff_ne]
    rintro rfl
    revert h
    decide
  rw [isBare, hmark, hpoint, Yaml.startsNumber_of_toNat (by omega)]
  rfl

/-- Blank characters are no marks. -/
theorem isBare_of_isBlank {c : Char} (h : Blank.isBlank c) : isBare c := by
  unfold Blank.isBlank at h
  simp only [Bool.or_eq_true, Bool.and_eq_true, beq_iff_eq, decide_eq_true_eq] at h
  exact isBare_of_toNat (by omega)

/-- Neither are small letters. -/
theorem isBare_of_letters {cs : List Char} (h : ∀ c ∈ cs, 0x61 ≤ c.toNat ∧ c.toNat ≤ 0x7A) :
    ∀ c ∈ cs, isBare c := fun c hc => isBare_of_toNat (Or.inr (Or.inl (h c hc)))

/-- If a text announces no encoding, neither does what stands in front in it. -/
theorem announced_of_append {t u : Text} (h : Source.announced (t ++ u) = (.utf8, t ++ u, 0)) :
    Source.announced t = (.utf8, t, 0) := by
  unfold Source.announced
  split
  · cases h
  · cases h
  · have hskipped : 3 = 0 := congrArg (fun p => p.2.2) h
    cases hskipped
  · rfl

/-- Blank characters and letters are no byte order mark. -/
theorem announced_encode_of_forall {cs : List Char} (h : ∀ c ∈ cs, c ≠ Yaml.orderMark) :
    Source.announced (Utf8.encode cs) = (.utf8, Utf8.encode cs, 0) :=
  Source.announced_encode fun hhead => h _ (List.mem_of_mem_head? hhead) rfl

theorem encode_utf8 (cs : List Char) : Source.Encoding.utf8.encode cs = Utf8.encode cs := rfl

variable {line : Text}

/-- A line that is a word but for blanks around it is bare, if the word is. -/
theorem bare_of_trim {word : List Char} (htrim : Blank.trim line = Utf8.encode word)
    (hword : ∀ after : List Char, (∀ c ∈ after, isBare c) → BareChars (word ++ after))
    (hmark : Yaml.orderMark ∉ word)
    (hencoded : (Source.announced line).2.1 =
      (Source.announced line).1.encode (Source.ofBytes line).chars) : (Source.ofBytes line).Bare := by
  obtain ⟨before, after, heq, hbefore, hafter⟩ := Blank.exists_eq_trim line
  rw [htrim, ← Utf8.encode_append, ← Utf8.encode_append, List.append_assoc] at heq
  have hannounced : Source.announced line = (.utf8, line, 0) := by
    rw [heq]
    refine announced_encode_of_forall ?_
    rintro c hc rfl
    rcases List.mem_append.1 hc with hc | hc
    · exact absurd (hbefore _ hc) (by decide)
    · rcases List.mem_append.1 hc with hc | hc
      · exact hmark hc
      · exact absurd (hafter _ hc) (by decide)
  rw [hannounced, encode_utf8] at hencoded
  rw [Source.Bare, ← Utf8.encode_injective (heq.symm.trans hencoded)]
  exact BareChars.append (fun c hc => isBare_of_isBlank (hbefore c hc))
    (hword after fun c hc => isBare_of_isBlank (hafter c hc))

/-- A line of blanks is bare. -/
theorem bare_of_blank (htrim : Blank.trim (line ++ Text.newline) = [])
    (hencoded : (Source.announced line).2.1 =
      (Source.announced line).1.encode (Source.ofBytes line).chars) : (Source.ofBytes line).Bare := by
  obtain ⟨before, after, heq, hbefore, hafter⟩ := Blank.exists_eq_trim (line ++ Text.newline)
  rw [htrim, List.append_nil, ← Utf8.encode_append] at heq
  have hblank : ∀ c ∈ before ++ after, Blank.isBlank c := List.forall_mem_append.2 ⟨hbefore, hafter⟩
  have hannounced : Source.announced line = (.utf8, line, 0) := by
    refine announced_of_append (u := Text.newline) ?_
    rw [heq]
    refine announced_encode_of_forall ?_
    rintro c hc rfl
    exact absurd (hblank _ hc) (by decide)
  rw [hannounced, encode_utf8] at hencoded
  have hchars : (Source.ofBytes line).chars ++ ['\n'] = before ++ after := by
    apply Utf8.encode_injective
    rw [Utf8.encode_append, ← heq, ← hencoded]
    rfl
  refine BareChars.of_forall fun c hc => isBare_of_isBlank (hblank c ?_)
  rw [← hchars]
  exact List.mem_append_left _ hc

/-- A command is a bare line. -/
theorem bare_of_command {a : Action} (h : Intake.command? line = some a)
    (hencoded : (Source.announced line).2.1 =
      (Source.announced line).1.encode (Source.ofBytes line).chars) : (Source.ofBytes line).Bare := by
  obtain ⟨before, after, heq, -⟩ := List.lookup_eq_some_iff.1 h
  have hmem : (Blank.trim line, a) ∈ [(utf8 "exit", Action.leave), (utf8 ":vars", .showVars),
      (utf8 ":funcs", .showFuncs)] := heq ▸ List.mem_append_right before List.mem_cons_self
  simp only [List.mem_cons, Prod.mk.injEq, List.not_mem_nil, or_false, Utf8.utf8_eq_encode] at hmem
  rcases hmem with ⟨htrim, -⟩ | ⟨htrim, -⟩ | ⟨htrim, -⟩
  · refine bare_of_trim htrim (fun after hafter => ?_) (by decide) hencoded
    exact BareChars.append (isBare_of_letters (by simp)) (.of_forall hafter)
  · refine bare_of_trim htrim (fun after hafter => ?_) (by decide) hencoded
    have hvars : BareChars ("vars".toList ++ after) :=
      .append (isBare_of_letters (by simp)) (.of_forall hafter)
    exact hvars.cons (Or.inr ⟨rfl, 'v', rfl, by decide⟩)
  · refine bare_of_trim htrim (fun after hafter => ?_) (by decide) hencoded
    have hfuncs : BareChars ("funcs".toList ++ after) :=
      .append (isBare_of_letters (by simp)) (.of_forall hafter)
    exact hfuncs.cons (Or.inr ⟨rfl, 'f', rfl, by decide⟩)

end Lines

/-! ## Lines -/

/-- What a session does with a line while none waits. -/
theorem Intake.take_line (line : Text) :
    Intake.take {} (.line line) =
      match Intake.command? line with
      | some a => ({}, a)
      | none =>
        if 0 < bracketDepth line then (⟨line ++ Text.newline, bracketDepth line⟩, .wait)
        else ({}, Intake.sourceAction (line ++ Text.newline)) := by
  have hnone := Intake.take_line_holding Waiting.nil line
  have hadd := Intake.addLine_holding [] line
  rw [List.nil_append, show joined [line] = line ++ Text.newline by simp [joined]] at hadd
  have hdepth : bracketDepth (line ++ Text.newline) = bracketDepth line := by
    rw [bracketDepth_append]
    exact add_zero _
  rw [hdepth] at hadd
  have hempty : Intake.holding [] = {} := rfl
  have hholding : Intake.holding [line] = ⟨line ++ Text.newline, bracketDepth line⟩ := by
    simp [Intake.holding, joined, hdepth]
  rw [hempty] at hnone hadd
  rw [hholding] at hadd
  rcases hnone with ⟨a, -, ha, htake⟩ | ⟨hl, htake⟩
  · rw [htake, ha]
  · rw [htake, hl rfl, hadd]

/-- A line that denotes a tree is no command, and not blank. -/
theorem Intake.take_line_of_tree {line : Text} {tree : Tree} (h : Tree.parse line = .ok [tree]) :
    Intake.take {} (.line line) =
      if 0 < bracketDepth line then (⟨line ++ Text.newline, bracketDepth line⟩, .wait)
      else ({}, .submit (line ++ Text.newline)) := by
  obtain ⟨ts, -, hencoded, -⟩ := bracketDepth_of_readAll h
  have hbare : ¬ (Source.ofBytes line).Bare := fun hbare => by
    cases TreeStream.readAll_bare hbare h
  have hcommand : Intake.command? line = none :=
    Option.eq_none_iff_forall_not_mem.2 fun a ha => hbare (bare_of_command ha hencoded)
  have hsource : Intake.sourceAction (line ++ Text.newline) = .submit (line ++ Text.newline) := by
    rw [Intake.sourceAction, if_neg]
    rw [List.isEmpty_iff]
    exact fun htrim => hbare (bare_of_blank htrim hencoded)
  rw [Intake.take_line, hcommand, hsource]

/-- The depth of the brackets of a text that are none of its tokens. -/
def strayDepth (text : Text) (ts : List Token) : Int :=
  bracketDepth ((Source.announced text).1.encode (strays ts (Source.ofBytes text).chars))

/-- A result that is known to be a single one. -/
theorem exists_of_length_eq_one {ε α : Type} {x : Except ε (List α)}
    (h : x.toOption.map List.length = some 1) : ∃ a, x = .ok [a] := by
  obtain ⟨as, has, hlength⟩ := Option.map_eq_some_iff.1 h
  obtain ⟨a, rfl⟩ := List.length_eq_one_iff.1 hlength
  cases x with
  | error e => cases has
  | ok as =>
    obtain rfl : as = [a] := Option.some.inj has
    exact ⟨a, rfl⟩

/-- A line that is read as one tree has at most the depth of its stray brackets, since its tokens
open no more brackets than they close. A session that waits for nothing takes such a line neither
for a command nor for a blank one: it waits for more lines if the depth is positive, and otherwise
submits the line as it stands, as it does if no more stray brackets are opened than closed. -/
theorem Intake.take_line_of_parse {line : Text} {tree : Tree} (h : Tree.parse line = .ok [tree]) :
    ∃ ts, (∀ us, TokensOf line us ↔ us = ts) ∧
      (Source.announced line).2.1 = (Source.announced line).1.encode (Source.ofBytes line).chars ∧
      (∀ t ∈ ts, ∀ c, t.kind.bracket? = some c → (Source.ofBytes line).chars[t.start.index]? = some c) ∧
      flowDepth ts ≤ 0 ∧ bracketDepth line = flowDepth ts + strayDepth line ts ∧
      ∀ s : Intake, s.InStep → s.depth = 0 →
        (strayDepth line ts ≤ 0 →
          bracketDepth line ≤ 0 ∧ s.take (.line line) = ({}, .submit (line ++ Text.newline))) ∧
        s.take (.line line) =
          if 0 < bracketDepth line then (⟨line ++ Text.newline, bracketDepth line⟩, .wait)
          else ({}, .submit (line ++ Text.newline)) := by
  obtain ⟨ts, hts, hencoded, hwritten, hdepth, hsum⟩ := bracketDepth_of_readAll h
  refine ⟨ts, fun us => ⟨fun hus => hus.unique hts, fun heq => heq ▸ hts⟩, hencoded, hwritten, hdepth,
    hsum, fun s hstep hzero => ?_⟩
  obtain rfl : s = {} := by
    obtain ⟨waiting, depth⟩ := s
    obtain rfl : depth = 0 := hzero
    obtain rfl : waiting = [] := hstep.empty.1 rfl
    rfl
  have htake := Intake.take_line_of_tree h
  refine ⟨fun hstray => ?_, htake⟩
  have hclosed : bracketDepth line ≤ 0 := by
    rw [hsum]
    exact add_nonpos hdepth hstray
  rw [htake, if_neg (not_lt.2 hclosed)]
  exact ⟨hclosed, rfl⟩

/-- A line whose comment has a bracket is one tree and waits, and one whose strings have a pair of
brackets is submitted. -/
theorem Intake.take_line_of_parse_stray :
    (∃ tree, Tree.parse (utf8 "1 # [") = .ok [tree]) ∧ bracketDepth (utf8 "1 # [") = 1 ∧
      Intake.take {} (.line (utf8 "1 # [")) = (⟨utf8 "1 # [\n", 1⟩, .wait) ∧
      (∃ tree, Tree.parse (utf8 "\x7blet: [\"[x]\", 5]\x7d") = .ok [tree]) ∧
      Intake.take {} (.line (utf8 "\x7blet: [\"[x]\", 5]\x7d")) =
        ({}, .submit (utf8 "\x7blet: [\"[x]\", 5]\x7d\n")) := by
  have hone : (Tree.parse (utf8 "1 # [")).toOption.map List.length = some 1 := by decide +kernel
  have htwo : (Tree.parse (utf8 "\x7blet: [\"[x]\", 5]\x7d")).toOption.map List.length = some 1 := by
    decide +kernel
  obtain ⟨tree, htree⟩ := exists_of_length_eq_one hone
  obtain ⟨tree', htree'⟩ := exists_of_length_eq_one htwo
  obtain ⟨ts, -, -, -, -, -, hwait⟩ := Intake.take_line_of_parse htree
  obtain ⟨ts', -, -, -, -, -, hsubmit⟩ := Intake.take_line_of_parse htree'
  refine ⟨⟨tree, htree⟩, by decide, ?_, ⟨tree', htree'⟩, ?_⟩
  · exact (hwait {} (Intake.inStep_holding Waiting.nil) rfl).2
  · exact (hsubmit {} (Intake.inStep_holding Waiting.nil) rfl).2

end TreeLang
