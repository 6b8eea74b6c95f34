import TreeLang.Proofs.Leads
import TreeLang.Proofs.Yaml.Source
import TreeLang.Yaml.Style

/-!
# Cursors over written text

A cursor holds the characters at hand and the blocks after them. `Cursor.Shows N c rest m` forgets
how the text is cut: the cursor stands at the mark `m`, and `rest` is what follows. `Cursor.At N c
rest m n` adds that `n` characters are at hand, as far as there are so many.

The texts meant here are those that are written: every character is one that needs no escape. So no
character ends a line but the line feed and the two separators of Unicode, and none is the byte
order mark or the character past the end.
-/

set_option autoImplicit false

namespace TreeLang.Yaml

/-! ## Written characters -/

/-- Whether all characters of a text are written as they are. -/
def Clear (cs : List Char) : Prop := ∀ c ∈ cs, Style.isSpecial c = false

theorem clear_of_all {cs : List Char} (h : cs.all fun c => !Style.isSpecial c) : Clear cs := by
  intro c hc
  simpa using List.all_eq_true.1 h c hc

theorem Clear.tail {c : Char} {cs : List Char} (h : Clear (c :: cs)) : Clear cs :=
  fun d hd => h d (List.mem_cons_of_mem _ hd)

theorem Clear.head {c : Char} {cs : List Char} (h : Clear (c :: cs)) : Style.isSpecial c = false :=
  h c List.mem_cons_self

theorem clear_append {cs ds : List Char} : Clear (cs ++ ds) ↔ Clear cs ∧ Clear ds := by
  constructor
  · intro h
    exact ⟨fun c hc => h c (List.mem_append_left _ hc), fun c hc => h c (List.mem_append_right _ hc)⟩
  · rintro ⟨hcs, hds⟩ c hc
    rcases List.mem_append.1 hc with hc | hc
    · exact hcs c hc
    · exact hds c hc

/-- The codes of the characters that are not special. -/
theorem isSpecial_eq_false {c : Char} (h : Style.isSpecial c = false) :
    c.toNat = 0x09 ∨ c.toNat = 0x0A ∨ (0x20 ≤ c.toNat ∧ c.toNat ≤ 0x7E) ∨
      (0xA0 ≤ c.toNat ∧ c.toNat ≤ 0xFFFD ∧ c.toNat ≠ 0xFEFF) := by
  have htab : ∀ d : Char, d = '\t' → d.toNat = 0x09 := by
    rintro d rfl
    rfl
  simp only [Style.isSpecial, Style.isWritable, Bool.and_eq_false_iff, Bool.not_eq_false',
    Bool.or_eq_true, Bool.and_eq_true, beq_iff_eq, decide_eq_true_eq, bne_iff_ne, ne_eq,
    bne_eq_false_iff_eq] at h
  rcases h with h | (h | h) | h
  · exact Or.inl (htab c h)
  · exact Or.inr (Or.inl h)
  · exact Or.inr (Or.inr (Or.inl h))
  · exact Or.inr (Or.inr (Or.inr ⟨h.1.1, h.1.2, h.2⟩))

theorem ne_endChar {c : Char} (h : Style.isSpecial c = false) : c ≠ endChar := by
  rintro rfl
  exact absurd h (by decide)

theorem ne_orderMark {c : Char} (h : Style.isSpecial c = false) : c ≠ orderMark := by
  rintro rfl
  exact absurd h (by decide)

theorem ne_return {c : Char} (h : Style.isSpecial c = false) : c ≠ '\r' := by
  rintro rfl
  exact absurd h (by decide)

/-- A written character that ends a line is kept as it is. -/
theorem keptBreak {c : Char} (h : Style.isSpecial c = false) (hb : isBreak c = true) :
    (if c.toNat < 0x2028 then ['\n'] else [c]) = [c] := by
  have hc := isSpecial_eq_false h
  simp only [isBreak, Bool.or_eq_true, beq_iff_eq] at hb
  by_cases hlt : c.toNat < 0x2028
  · have hten : c.toNat = 0x0A := by omega
    rw [if_pos hlt, ← Char.ofNat_toNat c, hten]
  · rw [if_neg hlt]

/-! ## Marks -/

/-- The mark after a character. -/
def Mark.past (m : Mark) (c : Char) : Mark :=
  if isBreak c then ⟨m.index + 1, m.line + 1, 0⟩ else ⟨m.index + 1, m.line, m.column + 1⟩

/-- The mark after characters. -/
def Mark.over (m : Mark) (cs : List Char) : Mark := cs.foldl Mark.past m

theorem Mark.over_append (m : Mark) (cs ds : List Char) :
    m.over (cs ++ ds) = (m.over cs).over ds := List.foldl_append

/-- Within a line a mark goes right by the number of characters. -/
theorem Mark.over_line {cs : List Char} (h : ∀ c ∈ cs, isBreak c = false) (m : Mark) :
    m.over cs = ⟨m.index + cs.length, m.line, m.column + cs.length⟩ := by
  induction cs generalizing m with
  | nil => rfl
  | cons c cs ih =>
    have hpast : m.past c = ⟨m.index + 1, m.line, m.column + 1⟩ := by
      unfold Mark.past
      rw [h c List.mem_cons_self]
      rfl
    show (m.past c).over cs = _
    rw [ih (fun d hd => h d (List.mem_cons_of_mem _ hd)), hpast, List.length_cons]
    simp only [Mark.mk.injEq, true_and]
    omega

/-! ## What a cursor shows -/

namespace Cursor

/-- The cursor stands at a mark in front of a written text, nothing has failed, and the bound leaves
room for the text. Past the end there may be some characters zero at hand. -/
structure Shows (N : Nat) (c : Cursor) (rest : List Char) (m : Mark) : Prop where
  text : ∃ k, c.ready ++ c.blocks.flatten = rest ++ List.replicate k endChar ∧
    (k = 0 ∨ c.blocks = [])
  damage : c.damage = none
  trouble : c.trouble = none
  marked : c.marked = false
  clear : Clear rest
  bound : c.bound = N
  fits : rest.length + 8 ≤ N
  mark : c.mark = m

/-- The cursor shows a text and has `n` characters of it at hand, as far as there are so many. -/
structure At (N : Nat) (c : Cursor) (rest : List Char) (m : Mark) (n : Nat) : Prop extends
    Shows N c rest m where
  hand : n ≤ c.ready.length ∨ c.blocks = []

variable {N : Nat} {c : Cursor} {rest : List Char} {m : Mark} {n : Nat}

/-- The bound is greater than the number of characters to come. -/
theorem Shows.room (h : Shows N c rest m) : rest.length + 8 ≤ c.bound := h.bound ▸ h.fits

theorem At.mono {k : Nat} (h : At N c rest m n) (hk : k ≤ n) : At N c rest m k :=
  ⟨h.toShows, h.hand.imp_left (Nat.le_trans hk)⟩

theorem Shows.at_zero (h : Shows N c rest m) : At N c rest m 0 := ⟨h, Or.inl (Nat.zero_le _)⟩

/-- What is seen ahead is the text, and the character zero past its end. -/
theorem At.ahead (h : At N c rest m n) {i : Nat} (hi : i < n) : c.ahead i = rest.getD i endChar := by
  obtain ⟨k, htext, -⟩ := h.text
  have hrest : (rest ++ List.replicate k endChar).getD i endChar = rest.getD i endChar := by
    rw [List.getD_eq_getElem?_getD, List.getD_eq_getElem?_getD]
    by_cases hlt : i < rest.length
    · rw [List.getElem?_append_left hlt]
    · rw [List.getElem?_append_right (Nat.le_of_not_lt hlt), List.getElem?_replicate,
        List.getElem?_eq_none (Nat.le_of_not_lt hlt)]
      split <;> rfl
  unfold Cursor.ahead
  rw [← hrest, ← htext]
  rcases h.hand with hready | hblocks
  · rw [List.getD_eq_getElem?_getD, List.getD_eq_getElem?_getD,
      List.getElem?_append_left (Nat.lt_of_lt_of_le hi hready)]
  · rw [hblocks, List.flatten_nil, List.append_nil]

/-- The character at the cursor is the first one to come, or else the mark of the end. -/
theorem At.headD (h : At N c rest m (n + 1)) : c.ahead 0 = rest.headD endChar := by
  rw [h.ahead (Nat.succ_pos n)]
  cases rest <;> rfl

/-- The character at the cursor is at hand. -/
theorem At.ready_eq {ch : Char} (h : At N c (ch :: rest) m (n + 1)) :
    ∃ r, c.ready = ch :: r := by
  have hahead : c.ahead 0 = ch := h.ahead (Nat.succ_pos n)
  unfold Cursor.ahead at hahead
  cases hr : c.ready with
  | nil =>
    rw [hr] at hahead
    exact absurd hahead.symm (ne_endChar h.clear.head)
  | cons d r =>
    rw [hr] at hahead
    exact ⟨r, by rw [← hahead]; rfl⟩

/-- The end of the source is no character of a marker, so three of them in a row are all there. -/
theorem startsThrice_iff {ch : Char} (hch : ch ≠ endChar) (cs : List Char) :
    (cs.getD 0 endChar == ch && cs.getD 1 endChar == ch && cs.getD 2 endChar == ch) = true ↔
      ∃ r, cs = ch :: ch :: ch :: r := by
  rcases cs with _ | ⟨x, _ | ⟨y, _ | ⟨z, r⟩⟩⟩ <;> simp [hch.symm, and_assoc]

theorem startsLikeMarker_eq (cs : List Char) : Style.startsLikeMarker cs =
    ((cs.getD 0 endChar == '-' && cs.getD 1 endChar == '-' && cs.getD 2 endChar == '-') ||
      (cs.getD 0 endChar == '.' && cs.getD 1 endChar == '.' && cs.getD 2 endChar == '.')) := by
  unfold Style.startsLikeMarker
  split
  · rfl
  · rfl
  · rename_i hdash hdot
    symm
    rw [Bool.or_eq_false_iff, ← Bool.not_eq_true, ← Bool.not_eq_true, startsThrice_iff (by decide),
      startsThrice_iff (by decide)]
    exact ⟨fun ⟨r, heq⟩ => hdash r heq, fun ⟨r, heq⟩ => hdot r heq⟩

/-- A document marker is seen where the text has one at the start of a line. -/
theorem At.atDocumentMark (h : At N c rest m 4) : c.atDocumentMark =
    (m.column == 0 && isGap (rest.getD 3 endChar) && Style.startsLikeMarker rest) := by
  have hmarker : Style.startsLikeMarker c.ready = Style.startsLikeMarker rest := by
    rw [startsLikeMarker_eq, startsLikeMarker_eq]
    have h0 : c.ready.getD 0 endChar = rest.getD 0 endChar := h.ahead (by omega)
    have h1 : c.ready.getD 1 endChar = rest.getD 1 endChar := h.ahead (by omega)
    have h2 : c.ready.getD 2 endChar = rest.getD 2 endChar := h.ahead (by omega)
    rw [h0, h1, h2]
  rw [← hmarker, ← h.ahead (i := 3) (by omega), ← h.mark]
  rfl

/-! ## Moving -/

/-- The cursor behind the first character at hand shows the text behind it. -/
theorem At.advance {ch : Char} {r : List Char} (h : At N c (ch :: rest) m (n + 1))
    (hr : c.ready = ch :: r) (newlines : Nat) :
    At N { c with ready := r, mark := m.past ch, newlines := newlines } rest (m.past ch) n := by
  obtain ⟨k, htext, hk⟩ := h.text
  rw [hr, List.cons_append, List.cons_append] at htext
  have hlen := h.fits
  refine ⟨⟨⟨k, (List.cons.inj htext).2, hk⟩, h.damage, h.trouble, h.marked, h.clear.tail, h.bound,
    ?_, rfl⟩, ?_⟩
  · rw [List.length_cons] at hlen
    omega
  · refine h.hand.imp_left fun hn => ?_
    rw [hr, List.length_cons] at hn
    exact Nat.le_of_succ_le_succ hn

/-- Skipping a character leads past it. -/
theorem At.skip {ch : Char} (h : At N c (ch :: rest) m (n + 1)) (hb : isBreak ch = false) :
    At N c.skip rest (m.past ch) n := by
  obtain ⟨r, hr⟩ := h.ready_eq
  have hskip : c.skip = { c with
      ready := r, mark := m.past ch, newlines := if isSpaceOrTab ch then c.newlines else 0 } := by
    unfold Cursor.skip Mark.past
    rw [hr, hb, ← h.mark]
    rfl
  rw [hskip]
  exact h.advance hr _

/-- Taking a break leads past it. -/
theorem At.takeBreak {ch : Char} (h : At N c (ch :: rest) m (n + 1)) (hb : isBreak ch = true) :
    c.takeBreak.1 = [ch] ∧ At N c.takeBreak.2 rest (m.past ch) n := by
  obtain ⟨r, hr⟩ := h.ready_eq
  have hline : c.nextLine 1 r = { c with
      ready := r, mark := m.past ch, newlines := c.newlines + 1 } := by
    unfold Cursor.nextLine Mark.past
    rw [hb, ← h.mark]
    rfl
  have htake : c.takeBreak = ([ch], c.nextLine 1 r) := by
    unfold Cursor.takeBreak
    rw [hr]
    split
    · rename_i heq
      exact absurd (List.cons.inj heq).1 (ne_return h.clear.head)
    · rename_i heq
      obtain ⟨rfl, rfl⟩ := List.cons.inj heq
      rw [if_pos hb, keptBreak h.clear.head hb]
    · rename_i heq
      cases heq
  rw [htake, hline]
  exact ⟨rfl, h.advance hr _⟩

/-! ## Taking blocks -/

theorem reaches_iff (n : Nat) (cs : List Char) : reaches n cs = true ↔ n ≤ cs.length := by
  unfold reaches
  cases n with
  | zero => simp
  | succ n =>
    rw [Nat.succ_le_iff]
    simp

/-- Filling takes blocks from the source until enough characters are ready or none are left, and
loses nothing. -/
theorem fill_spec (n : Nat) (blocks : List (List Char)) : ∀ ready : List Char,
    (fill n ready blocks).1 ++ (fill n ready blocks).2.flatten = ready ++ blocks.flatten ∧
      (n ≤ (fill n ready blocks).1.length ∨ (fill n ready blocks).2 = []) ∧
      ready.length ≤ (fill n ready blocks).1.length ∧ (blocks = [] → (fill n ready blocks).2 = []) := by
  induction blocks with
  | nil =>
    intro ready
    exact ⟨rfl, Or.inr rfl, Nat.le_refl _, fun _ => rfl⟩
  | cons b bs ih =>
    intro ready
    rw [fill]
    by_cases h : reaches n ready = true
    · rw [if_pos h]
      exact ⟨rfl, Or.inl ((reaches_iff n ready).1 h), Nat.le_refl _, nofun⟩
    · rw [if_neg h]
      obtain ⟨htext, hhand, hlen, -⟩ := ih (ready ++ b)
      refine ⟨?_, hhand, ?_, nofun⟩
      · rw [htext, List.flatten_cons, List.append_assoc]
      · rw [List.length_append] at hlen
        omega

theorem head?_ne_orderMark {r x : List Char} {k : Nat} (hclear : Clear rest)
    (h : r ++ x = rest ++ List.replicate k endChar) : (r.head? == some orderMark) = false := by
  cases r with
  | nil => rfl
  | cons d r =>
    have hmem : d ∈ rest ++ List.replicate k endChar := h ▸ List.mem_cons_self
    have hne : d ≠ orderMark := by
      rcases List.mem_append.1 hmem with hd | hd
      · exact ne_orderMark (hclear d hd)
      · rw [List.eq_of_mem_replicate hd]
        decide
    simpa using hne

/-- Taking blocks changes nothing that is shown. -/
theorem At.load {k : Nat} (h : At N c rest m k) (n : Nat) :
    (c.load n).2 = none ∧ At N (c.load n).1 rest m n ∧ At N (c.load n).1 rest m k := by
  unfold Cursor.load
  by_cases hn : reaches n c.ready = true
  · rw [if_pos hn]
    exact ⟨rfl, ⟨h.toShows, Or.inl ((reaches_iff n _).1 hn)⟩, h⟩
  · rw [if_neg hn]
    obtain ⟨j, htext, hj⟩ := h.text
    obtain ⟨hfill, hhand, hlen, hempty⟩ := fill_spec n c.blocks c.ready
    generalize fill n c.ready c.blocks = p at hfill hhand hlen hempty
    obtain ⟨ready, blocks⟩ := p
    dsimp only at hfill hhand hlen hempty ⊢
    rw [htext] at hfill
    have hkeep : k ≤ ready.length ∨ blocks = [] := by
      rcases h.hand with hk | hk
      · exact Or.inl (Nat.le_trans hk hlen)
      · exact Or.inr (hempty hk)
    by_cases hr : reaches n ready = true
    · rw [if_pos hr]
      have hshows : Shows N { c with
          ready := ready, blocks := blocks, marked := ready.head? == some orderMark } rest m :=
        ⟨⟨j, hfill, hj.imp_right hempty⟩, h.damage, h.trouble, head?_ne_orderMark h.clear hfill, h.clear,
          h.bound, h.fits, h.mark⟩
      exact ⟨rfl, ⟨hshows, Or.inl ((reaches_iff n _).1 hr)⟩, ⟨hshows, hkeep⟩⟩
    · -- the text is at hand to its end, and one more character zero is put after it
      rw [if_neg hr, h.damage]
      have hnil : blocks = [] := by
        rcases hhand with hn | hn
        · exact absurd ((reaches_iff n _).2 hn) hr
        · exact hn
      subst hnil
      rw [List.flatten_nil, List.append_nil] at hfill
      have hzero : (ready ++ [endChar]) ++ [] = rest ++ List.replicate (j + 1) endChar := by
        rw [List.append_nil, hfill, List.append_assoc, List.replicate_succ']
      have hshows : Shows N { c with
          ready := ready ++ [endChar], blocks := [], damage := none,
          marked := (ready ++ [endChar]).head? == some orderMark } rest m :=
        ⟨⟨j + 1, hzero, Or.inr rfl⟩, rfl, h.trouble, head?_ne_orderMark h.clear hzero, h.clear,
          h.bound, h.fits, h.mark⟩
      exact ⟨rfl, ⟨hshows, Or.inr rfl⟩, ⟨hshows, Or.inr rfl⟩⟩

end Cursor

/-! ## Reading -/

namespace Read

open Cursor (At)

variable {b : Prop} {N : Nat} {c : Cursor} {rest : List Char} {m : Mark} {n : Nat}

/-- Asking for characters makes them ready and moves nothing. -/
theorem leads_need {k : Nat} (h : At N c rest m k) (n : Nat) :
    Leads b (need n) c fun _ c' => At N c' rest m n ∧ At N c' rest m k := by
  obtain ⟨hnone, hn, hk⟩ := h.load n
  unfold need
  simp only [leads_bind, leads_get, leads_set, hnone, leads_pure]
  exact ⟨hn, hk⟩

theorem has_eq (n : Nat) (c : Cursor) :
    has n c = match need n c with
      | .ok _ c' => .ok true c'
      | .error _ c' => .ok false c' := by
  unfold has
  simp only [bind, EStateM.bind, tryCatch, tryCatchThe, MonadExceptOf.tryCatch, EStateM.tryCatch,
    pure, EarlyReturnT.return, EarlyReturn.runK]
  cases need n c <;> rfl

/-- Whether there are characters is answered by asking for them. -/
theorem leads_has {k : Nat} (h : At N c rest m k) (n : Nat) :
    Leads b (has n) c fun a c' => a = true ∧ At N c' rest m n ∧ At N c' rest m k := by
  obtain ⟨_, c', hok, hn, hk⟩ := (leads_need h n (b := False)).exists_ok
  refine Leads.of_ok (a := true) ?_ ⟨rfl, hn, hk⟩
  rw [has_eq, hok]

@[simp] theorem leads_peek {Q : Char → Cursor → Prop} : Leads b peek c Q ↔ Q (c.ahead 0) c := Iff.rfl

@[simp] theorem leads_peekAt {Q : Char → Cursor → Prop} (n : Nat) :
    Leads b (peekAt n) c Q ↔ Q (c.ahead n) c := Iff.rfl

@[simp] theorem leads_mark {Q : Mark → Cursor → Prop} : Leads b mark c Q ↔ Q c.mark c := Iff.rfl

@[simp] theorem leads_bound {Q : Nat → Cursor → Prop} : Leads b bound c Q ↔ Q c.bound c := Iff.rfl

@[simp] theorem leads_skip {Q : Unit → Cursor → Prop} : Leads b skip c Q ↔ Q () c.skip := Iff.rfl

@[simp] theorem leads_fail {α : Type} {Q : α → Cursor → Prop} (fault : ScanFault) (context : Mark) :
    Leads b (fail fault context) c Q ↔ b := Iff.rfl

theorem leads_takeBreak {ch : Char} {k : Nat} (h : At N c (ch :: rest) m k) (hb : isBreak ch = true) :
    Leads b takeBreak c fun a c' => a = [ch] ∧ At N c' rest (m.past ch) 1 := by
  unfold takeBreak
  simp only [leads_bind, leads_modifyGet]
  exact (leads_need h 2).mono fun _ c' hc => hc.1.takeBreak hb

theorem leads_skipBreak {ch : Char} (h : At N c (ch :: rest) m 1) (hb : isBreak ch = true) :
    Leads b skipBreak c fun _ c' => At N c' rest (m.past ch) 1 := by
  have hahead : c.ahead 0 = ch := h.ahead Nat.one_pos
  unfold skipBreak
  simp only [leads_bind, leads_peek, hahead, hb, if_true, leads_pure]
  exact (leads_takeBreak h hb).mono fun _ _ hc => hc.2

/-- Skipping many characters leads past all of them. -/
theorem leads_skipMany {cs : List Char} (hcs : ∀ ch ∈ cs, isBreak ch = false) :
    ∀ {c : Cursor} {m : Mark}, At N c (cs ++ rest) m (cs.length + n) →
      Leads b (skipMany cs.length) c fun _ c' => At N c' rest (m.over cs) n := by
  induction cs with
  | nil =>
    intro c m h
    rw [List.length_nil, Nat.zero_add] at h
    exact h
  | cons ch cs ih =>
    intro c m h
    rw [List.length_cons, Nat.add_right_comm] at h
    show Leads b (do skip; skipMany cs.length) c _
    simp only [leads_bind, leads_skip]
    exact ih (fun d hd => hcs d (List.mem_cons_of_mem _ hd)) (h.skip (hcs ch List.mem_cons_self))

/-- Characters of a kind are taken as long as they come, at most `n` of them. -/
theorem leads_takeOnto {p : Char → Bool} {cs : List Char} (hp : ∀ ch ∈ cs, p ch = true)
    (hcs : ∀ ch ∈ cs, isBreak ch = false) : ∀ {c : Cursor} {m : Mark} {n : Nat} {taken : List Char},
    At N c (cs ++ rest) m 0 → cs.length ≤ n → (cs.length < n → p (rest.headD endChar) = false) →
      Leads b (takeOnto p n taken) c fun a c' =>
        a = cs.reverse ++ taken ∧ At N c' rest (m.over cs) 0 ∧
          (cs.length < n → At N c' rest (m.over cs) 1) := by
  induction cs with
  | nil =>
    intro c m n taken h _ hstop
    cases n with
    | zero => exact ⟨rfl, h, nofun⟩
    | succ n =>
      unfold takeOnto
      simp only [leads_bind, leads_peek]
      refine (leads_need h 1).mono fun _ c' hc => ?_
      have hahead : c'.ahead 0 = rest.headD endChar := hc.1.headD
      rw [hahead, hstop (Nat.succ_pos n)]
      exact ⟨rfl, hc.2, fun _ => hc.1⟩
  | cons ch cs ih =>
    intro c m n taken h hle hstop
    cases n with
    | zero => cases hle
    | succ n =>
      unfold takeOnto
      simp only [leads_bind, leads_peek]
      refine (leads_need h 1).mono fun _ c' hc => ?_
      have hahead : c'.ahead 0 = ch := hc.1.ahead Nat.one_pos
      rw [hahead, hp ch List.mem_cons_self, if_pos rfl]
      simp only [leads_bind, leads_skip]
      refine (ih (fun d hd => hp d (List.mem_cons_of_mem _ hd))
        (fun d hd => hcs d (List.mem_cons_of_mem _ hd))
        (hc.1.skip (hcs ch List.mem_cons_self)) (Nat.le_of_succ_le_succ hle)
        (fun hlt => hstop (Nat.succ_lt_succ hlt))).mono fun a c'' hc'' => ?_
      refine ⟨?_, hc''.2.1, fun hlt => hc''.2.2 (Nat.lt_of_succ_lt_succ hlt)⟩
      rw [hc''.1, List.reverse_cons, List.append_assoc]
      rfl

/-- Characters are taken as long as they are of a kind. -/
theorem leads_takeWhile {p : Char → Bool} {cs : List Char} {k : Nat} (hp : ∀ ch ∈ cs, p ch = true)
    (hcs : ∀ ch ∈ cs, isBreak ch = false) (h : At N c (cs ++ rest) m k)
    (hstop : p (rest.headD endChar) = false) :
    Leads b (takeWhile p) c fun a c' => a = cs ∧ At N c' rest (m.over cs) 1 := by
  have hroom := h.room
  rw [List.length_append] at hroom
  unfold takeWhile
  simp only [leads_bind, leads_bound, leads_pure]
  refine (leads_takeOnto hp hcs (h.mono (Nat.zero_le k)) (by omega) (fun _ => hstop)).mono
    fun a c' hc => ?_
  refine ⟨?_, hc.2.2 (by omega)⟩
  rw [hc.1, List.append_nil, List.reverse_reverse]

end Read

end TreeLang.Yaml
