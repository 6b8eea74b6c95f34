import TreeLang.Proofs.Yaml.HandOut
import TreeLang.Yaml.Scalar

/-!
# Sources without marks

A source is bare if it has none of the characters that mean something: no indicator, no digit, sign
or point. A colon may stand in front of a character that is no gap. The tokens of such a source are
plain scalars that do not start like a number (`TokenStream.Calm`), whatever blanks and line breaks
there are.
-/

set_option autoImplicit false

namespace TreeLang.Yaml

/-! ## Characters -/

/-- Whether a character is a digit or a sign, with which integers start. -/
def startsNumber (c : Char) : Bool :=
  (0x30 ≤ c.toNat && c.toNat ≤ 0x39) || c.toNat == 0x2B || c.toNat == 0x2D

/-- Whether a character is no mark of the notation and belongs to no number and no document
marker. -/
def isBare (c : Char) : Bool := !(TokenStream.indicators.contains c || startsNumber c || c == '.')

/-- No character is a mark, but for colons in front of characters that are no gaps. -/
def BareChars (cs : List Char) : Prop :=
  ∀ (i : Nat) (c : Char), cs[i]? = some c →
    isBare c ∨ c = ':' ∧ ∃ d, cs[i + 1]? = some d ∧ isGap d = false

namespace BareChars

variable {cs : List Char}

theorem cons {c : Char} (hc : isBare c ∨ c = ':' ∧ ∃ d ∈ cs.head?, isGap d = false) (h : BareChars cs) :
    BareChars (c :: cs) := by
  intro i d hd
  cases i with
  | zero =>
    obtain rfl : c = d := Option.some.inj hd
    refine hc.imp_right fun ⟨hcolon, e, he, hgap⟩ => ⟨hcolon, e, ?_, hgap⟩
    rwa [List.getElem?_cons_succ, ← List.head?_eq_getElem?]
  | succ i => exact h i d hd

theorem append {bs : List Char} (hbs : ∀ b ∈ bs, isBare b) (h : BareChars cs) : BareChars (bs ++ cs) := by
  induction bs with
  | nil => exact h
  | cons b bs ih =>
    obtain ⟨hb, hbs⟩ := List.forall_mem_cons.1 hbs
    exact (ih hbs).cons (Or.inl hb)

theorem of_forall (h : ∀ c ∈ cs, isBare c) : BareChars cs := fun _ c hc =>
  Or.inl (h c (List.mem_of_getElem? hc))

end BareChars

/-- No character of the source is a mark, but for colons in front of characters that are no gaps. -/
abbrev Source.Bare (src : Source) : Prop := BareChars src.chars

theorem BareChars.startsNumber_eq {cs : List Char} (h : BareChars cs) {i : Nat} {c : Char}
    (hget : cs[i]? = some c) : startsNumber c = false := by
  rcases h i c hget with hc | ⟨rfl, -⟩
  · unfold isBare at hc
    simp only [Bool.not_eq_true', Bool.or_eq_false_iff] at hc
    exact hc.1.2
  · rfl

theorem startsNumber_eq_true_iff (c : Char) : startsNumber c = true ↔
    0x30 ≤ c.toNat ∧ c.toNat ≤ 0x39 ∨ c.toNat = 0x2B ∨ c.toNat = 0x2D := by
  simp [startsNumber, or_assoc]

theorem startsNumber_of_toNat {c : Char} (h : c.toNat < 0x2B ∨ 0x39 < c.toNat) :
    startsNumber c = false := by
  rw [← Bool.not_eq_true, startsNumber_eq_true_iff]
  omega

theorem startsNumber_of_isBreak {c : Char} (h : isBreak c = true) : startsNumber c = false := by
  apply startsNumber_of_toNat
  unfold isBreak at h
  simp only [Bool.or_eq_true, beq_iff_eq] at h
  omega

theorem startsNumber_of_isSpaceOrTab {c : Char} (h : isSpaceOrTab c = true) : startsNumber c = false := by
  unfold isSpaceOrTab at h
  rcases Bool.or_eq_true_iff.1 h with h | h <;> rw [beq_iff_eq.1 h] <;> rfl

/-! ## Plain scalars -/

namespace Scalar

open Cursor (Within Passes)

/-- No character is one that numbers start with. -/
def Wordy (cs : List Char) : Prop := ∀ c ∈ cs, startsNumber c = false

theorem Wordy.append {cs ds : List Char} (hcs : Wordy cs) (hds : Wordy ds) : Wordy (cs ++ ds) :=
  List.forall_mem_append.2 ⟨hcs, hds⟩

/-- No character of a gap is one that numbers start with. -/
structure Gap.Wordy (g : Gap) : Prop where
  spaces : Scalar.Wordy g.spaces
  first : Scalar.Wordy g.first
  more : Scalar.Wordy g.more

theorem Gap.Wordy.folded {g : Gap} (h : g.Wordy) : Scalar.Wordy g.folded := by
  unfold Gap.folded
  split
  · split
    · split
      · intro c hc
        rw [List.mem_singleton.1 hc]
        rfl
      · exact h.more
    · exact h.first.append h.more
  · exact h.spaces

theorem wordy_singleton {c : Char} (h : startsNumber c = false) : Wordy [c] := by
  intro d hd
  rwa [List.mem_singleton.1 hd]

theorem answers_takeBreak : Answers Wordy Read.takeBreak := by
  have htake : Answers Wordy (modifyGet Cursor.takeBreak : Read (List Char)) := by
    refine ⟨fun c => ?_⟩
    rw [leads_modifyGet]
    unfold Cursor.takeBreak
    split
    · exact wordy_singleton rfl
    · split
      · rename_i hbreak
        dsimp only
        split
        · exact wordy_singleton rfl
        · exact wordy_singleton (startsNumber_of_isBreak hbreak)
      · exact List.forall_mem_nil _
    · exact List.forall_mem_nil _
  unfold Read.takeBreak
  infer_instance

/-- A gap that is read starts no number: it holds blanks, which are kept until the first break, and
breaks. -/
theorem answers_readGap (start : Mark) (margin : Option Int) (fuel : Nat) {g : Gap} (h : g.Wordy) :
    Answers Gap.Wordy (readGap start margin fuel g) := by
  induction fuel generalizing g with
  | zero => exact answers_pure h
  | succ fuel ih =>
    unfold readGap
    refine ⟨fun c => ?_⟩
    rw [leads_bind]
    unfold Read.peek
    simp only [leads_bind, leads_get, leads_pure]
    split
    · rename_i hspace
      have hnext : (if g.broken then g else { g with spaces := g.spaces ++ [c.ahead 0] } : Gap).Wordy := by
        split
        · exact h
        · exact ⟨h.spaces.append (wordy_singleton (startsNumber_of_isSpaceOrTab hspace)), h.first, h.more⟩
      have hrest := ih hnext
      exact Answers.leads c
    · split
      · refine (answers_takeBreak.bind fun b hb => ?_).leads c
        have hrest := @ih (if g.broken then { g with more := g.more ++ b }
          else { spaces := [], first := b, broken := true }) (by
            split
            · exact ⟨h.spaces, h.first, h.more.append hb⟩
            · exact ⟨List.forall_mem_nil _, hb, List.forall_mem_nil _⟩)
        infer_instance
      · exact h

/-! A plain scalar is read from characters of the source, and from gaps. -/

section Plain

variable {src : Source} {c : Cursor}

/-- The cursor is in the source, and what has been read of a scalar has no character that numbers
start with; nothing is said after a failure. -/
def Goes (src : Source) (s : PlainState) (c : Cursor) : Prop :=
  c.trouble = none → Within src c ∧ Wordy s.acc ∧ s.gap.Wordy

theorem Goes.passes {s : PlainState} {c c' : Cursor} (h : Goes src s c) (hpass : Passes c c') :
    Goes src s c' := by
  intro htrouble
  obtain ⟨hc, -, hwithin⟩ := hpass.2 htrouble
  exact ⟨hwithin src (h hc).1, (h hc).2⟩

theorem leads_passes {α : Type} (x : Read α) [h : Carries Passes x] (c : Cursor) :
    Leads True x c fun _ c' => Passes c c' := (h.leaves c).leads

/-- A run of a plain scalar goes along the text. The gap in front of a character is folded in with
it. -/
theorem Goes.readPlainRun (hbare : src.Bare) (inFlow : Bool) (fuel : Nat) {s : PlainState}
    (h : Goes src s c) : Leads True (readPlainRun inFlow fuel s) c (Goes src) := by
  induction fuel generalizing s c with
  | zero => exact h
  | succ fuel ih =>
    unfold Scalar.readPlainRun Read.peek Read.peekAt
    simp only [leads_bind, leads_get, leads_pure]
    split
    · exact h
    · simp only [leads_bind]
      refine (leads_passes Read.skip c).mono fun _ c₁ h₁ => ?_
      unfold Read.mark
      simp only [leads_bind, leads_get, leads_pure]
      refine (leads_passes (Read.need 2) c₁).mono fun _ c₂ h₂ => ?_
      have hpass := IsTrans.trans _ _ _ h₁ h₂
      refine ih fun htrouble => ?_
      obtain ⟨hc, -, hwithin⟩ := hpass.2 htrouble
      obtain ⟨hsrc, hacc, hgap⟩ := h hc
      refine ⟨hwithin src hsrc, ?_, ⟨List.forall_mem_nil _, List.forall_mem_nil _, List.forall_mem_nil _⟩⟩
      have hfirst : startsNumber (c.ahead 0) = false := by
        rcases hsrc.ahead_zero with hget | hend
        · exact hbare.startsNumber_eq hget
        · rw [hend]
          rfl
      refine List.forall_mem_cons.2 ⟨hfirst, ?_⟩
      refine Wordy.append (fun d hd => ?_) hacc
      exact hgap.folded d (List.mem_reverse.1 hd)

theorem Goes.readGap (start : Mark) (margin : Option Int) (fuel : Nat) {s : PlainState} (h : Goes src s c) :
    Leads True (readGap start margin fuel s.gap) c fun gap => Goes src { s with gap := gap } := by
  by_cases htrouble : c.trouble = none
  · obtain ⟨hsrc, hacc, hgap⟩ := h htrouble
    refine (((answers_readGap start margin fuel hgap).leads c).and (leads_passes _ c)).mono
      fun gap c' hc' htrouble' => ?_
    exact ⟨(hc'.2.2 htrouble').2.2 src hsrc, hacc, hc'.1⟩
  · refine (leads_passes _ c).mono fun gap c' hc' htrouble' => ?_
    exact absurd (hc'.2 htrouble').1 htrouble

theorem Goes.readPlainLines (hbare : src.Bare) (start : Mark) (inFlow : Bool) (margin : Int) (fuel : Nat)
    {s : PlainState} (h : Goes src s c) :
    Leads True (readPlainLines start inFlow margin fuel s) c (Goes src) := by
  induction fuel generalizing s c with
  | zero => exact h
  | succ fuel ih =>
    unfold Scalar.readPlainLines
    simp only [leads_bind]
    refine (leads_passes (Read.need 4) c).mono fun _ c₁ h₁ => ?_
    have hs₁ := h.passes h₁
    unfold Read.peek Read.bound Read.mark
    simp only [leads_bind, leads_get, leads_pure]
    split
    · exact hs₁
    · simp only [leads_bind, leads_get, leads_pure]
      refine (hs₁.readPlainRun hbare inFlow _).mono fun s₂ c₂ hs₂ => ?_
      split
      · exact hs₂
      · simp only [leads_bind, leads_get, leads_pure]
        refine (leads_passes (Read.need 1) c₂).mono fun _ c₃ h₃ => ?_
        refine ((hs₂.passes h₃).readGap start (some margin) c₃.bound).mono fun gap c₄ hs₄ => ?_
        split
        · exact hs₄
        · exact ih hs₄

/-- The first byte of an encoded character tells whether a number may start with it. -/
theorem startsNumber_of_utf8EncodeChar {ch : Char} {b : UInt8} {r : Text}
    (h : String.utf8EncodeChar ch = b :: r) (hb : Scalar.isDigit b ∨ b = 43 ∨ b = 45) :
    startsNumber ch = true := by
  have hbyte : b.toNat = 0x2B ∨ b.toNat = 0x2D ∨ 0x30 ≤ b.toNat ∧ b.toNat ≤ 0x39 := by
    rcases hb with hb | rfl | rfl
    · obtain ⟨hlow, hhigh⟩ := Bool.and_eq_true_iff.1 hb
      exact Or.inr (Or.inr ⟨UInt8.le_iff_toNat_le.1 (of_decide_eq_true hlow),
        UInt8.le_iff_toNat_le.1 (of_decide_eq_true hhigh)⟩)
    · exact Or.inl rfl
    · exact Or.inr (Or.inl rfl)
  have hval : ch.val.toNat = ch.toNat := rfl
  have hbounds := Utf8.toNat_bounds ch
  rw [startsNumber_eq_true_iff]
  unfold String.utf8EncodeChar at h
  simp only [hval] at h
  -- the first byte of a character of more than one byte is none of these
  split at h
  · obtain ⟨rfl, -⟩ := List.cons.inj h
    rw [Utf8.toNat_ofNat (by omega)] at hbyte
    omega
  · split at h
    · obtain ⟨rfl, -⟩ := List.cons.inj h
      rw [Utf8.toNat_ofNat (by omega)] at hbyte
      omega
    · split at h
      · obtain ⟨rfl, -⟩ := List.cons.inj h
        rw [Utf8.toNat_ofNat (by omega)] at hbyte
        omega
      · obtain ⟨rfl, -⟩ := List.cons.inj h
        rw [Utf8.toNat_ofNat (by omega)] at hbyte
        omega

theorem words_ne_int : ∀ p ∈ words, ∀ n, p.2 ≠ .int n := by
  simp [words]

/-- What the text of a plain scalar says is no integer if none of its characters starts one. -/
theorem meaning_ne_int {cs : List Char} (h : Wordy cs) (n : Int) : meaning (Utf8.encode cs) ≠ .int n := by
  unfold meaning meaningWith
  split
  · rename_i m hlookup
    obtain ⟨before, after, heq, -⟩ := List.lookup_eq_some_iff.1 hlookup
    exact words_ne_int (_, m) (heq ▸ List.mem_append_right before List.mem_cons_self) n
  · split
    · nofun
    · rename_i b r heq
      split
      · split <;> nofun
      · split
        -- only a text that starts like a number is looked at as one
        · rename_i hnumber
          cases cs with
          | nil => cases heq
          | cons ch cs =>
            obtain ⟨b', r', hch⟩ := List.exists_cons_of_ne_nil (Utf8.utf8EncodeChar_ne_nil ch)
            rw [Utf8.encode_cons, hch] at heq
            obtain ⟨rfl, -⟩ := List.cons.inj heq
            have hstarts := startsNumber_of_utf8EncodeChar hch hnumber
            rw [h ch List.mem_cons_self] at hstarts
            cases hstarts
        · nofun

theorem leads_readPlain_wordy (hbare : src.Bare) (hsrc : Within src c) (inFlow : Bool) (margin : Int) :
    Leads True (readPlain inFlow margin) c fun p c' => c'.trouble = none →
      ∃ cs, p.1.kind = .scalar (Utf8.encode cs) true ∧ Wordy cs := by
  unfold Scalar.readPlain Read.mark Read.bound
  simp only [leads_bind, leads_get, leads_pure]
  have hstart : Goes src { stop := c.mark } c := fun _ =>
    ⟨hsrc, List.forall_mem_nil _, List.forall_mem_nil _, List.forall_mem_nil _, List.forall_mem_nil _⟩
  refine (hstart.readPlainLines hbare c.mark inFlow margin c.bound).mono fun s c' hs htrouble => ?_
  exact ⟨s.acc.reverse, rfl, fun d hd => (hs htrouble).2.1 d (List.mem_reverse.1 hd)⟩

end Plain

end Scalar

/-! ## Tokens -/

/-- Whether a token of the kind is an end of the stream or a plain scalar that does not start like a
number. -/
def TokenKind.IsWord : TokenKind → Prop
  | .streamStart | .streamEnd => True
  | .scalar v plain => plain = true ∧ ∃ cs, v = Utf8.encode cs ∧ Scalar.Wordy cs
  | _ => False

namespace TokenStream

open Cursor (Passes Within)

/-- No collection is open, and the tokens that wait are words. -/
structure Calm (s : TokenStream) : Prop where
  words : ∀ t ∈ s.queue, t.kind.IsWord
  flowLevel : s.flowLevel = 0
  indent : s.indent = -1

/-- The cursor passes on, and if it is in the source what was calm stays calm. -/
def Lulls (src : Source) (s s' : TokenStream) : Prop :=
  Passes s.cursor s'.cursor ∧ (s'.cursor.trouble = none → Within src s.cursor → Calm s → Calm s')

section Lulls

variable {src : Source} {s : TokenStream}

instance : Std.Refl (Lulls src) := ⟨fun s => ⟨Std.Refl.refl s.cursor, fun _ _ h => h⟩⟩

instance : IsTrans TokenStream (Lulls src) where
  trans _ _ _ hab hbc := by
    refine ⟨IsTrans.trans _ _ _ hab.1 hbc.1, fun hc hsrc hcalm => ?_⟩
    obtain ⟨hb, -, -⟩ := hbc.1.2 hc
    obtain ⟨-, -, hwithin⟩ := hab.1.2 hb
    exact hbc.2 hc (hwithin src hsrc) (hab.2 hb hsrc hcalm)

instance (priority := low) carries_lulls {α : Type} (x : Scan α) [h : Carries Roams x] :
    Carries (Lulls src) x := by
  refine ⟨fun s => ⟨(h.leaves s).1, fun _ _ hcalm => ?_⟩⟩
  obtain ⟨hqueue, hlevel, hindent⟩ := (h.leaves s).2
  exact ⟨hqueue ▸ hcalm.words, hlevel.trans hcalm.flowLevel, hindent.trans hcalm.indent⟩

/-- It is enough to look at states without a failure that are calm and in the source. -/
theorem leaves_lulls {α : Type} {x : Scan α} (hpass : Passes s.cursor (stateOf (x s)).cursor)
    (h : s.cursor.trouble = none → Within src s.cursor → Calm s → Leaves (Lulls src) s x) :
    Leaves (Lulls src) s x :=
  ⟨hpass, fun htrouble hsrc hcalm => (h (hpass.2 htrouble).1 hsrc hcalm).2 htrouble hsrc hcalm⟩

theorem carries_push_word {t : Token} (ht : t.kind.IsWord) : Carries (Lulls src) (push t) := by
  refine carries_modify fun s => ⟨Std.Refl.refl s.cursor, fun _ _ hcalm => ?_⟩
  refine ⟨fun u hu => ?_, hcalm.flowLevel, hcalm.indent⟩
  rcases List.mem_append.1 hu with hu | hu
  · exact hcalm.words u hu
  · rwa [List.mem_singleton.1 hu]

/-- Where no block is open none is left. -/
theorem carries_leaveBlocks_calm {column : Int} (hcolumn : -1 ≤ column) (m : Mark) :
    Carries (Lulls src) (leaveBlocks column m) := by
  refine ⟨fun s => ⟨((carries_leaveBlocks column m).leaves s).1.1, fun _ _ hcalm => ?_⟩⟩
  have hno : (s.flowLevel == 0 && decide (column < s.indent)) = false := by
    rw [hcalm.indent, Bool.and_eq_false_iff, decide_eq_false_iff_not]
    exact Or.inr (by omega)
  show Calm (if (s.flowLevel == 0 && decide (column < s.indent)) = true then _ else s)
  rw [hno]
  exact hcalm

instance carries_readStreamStart_calm : Carries (Lulls src) readStreamStart := by
  have hstart : Carries Roams (modify fun s : TokenStream =>
      { s with started := true, keyAllowed := true, keys := [{}] } : Scan PUnit) :=
    carries_modify fun s => ⟨Std.Refl.refl s.cursor, rfl, rfl, rfl⟩
  have hpush : ∀ m : Mark, Carries (Lulls src) (push ⟨.streamStart, m, m⟩) :=
    fun _ => carries_push_word (by trivial)
  unfold readStreamStart
  infer_instance

instance carries_readStreamEnd_calm : Carries (Lulls src) readStreamEnd := by
  have hpush : ∀ m : Mark, Carries (Lulls src) (push ⟨.streamEnd, m, m⟩) :=
    fun _ => carries_push_word (by trivial)
  have hleave : ∀ m : Mark, Carries (Lulls src) (leaveBlocks (-1) m) :=
    carries_leaveBlocks_calm (le_refl _)
  unfold readStreamEnd
  refine .bind inferInstance fun _ => .bind inferInstance fun m => ?_
  infer_instance

/-- A plain scalar of a bare source is a word. -/
theorem leads_readPlain_word (hbare : src.Bare) (hsrc : s.cursor.trouble = none → Within src s.cursor)
    (inFlow : Bool) (margin : Int) :
    Leads True (reading (Scalar.readPlain inFlow margin)) s fun p s' =>
      Unnoted p.1 ∧ (s'.cursor.trouble = none → p.1.kind.IsWord) := by
  refine Leads.and ((answers_reading (answers_readPlain inFlow margin)).leads s) ?_
  rw [leads_reading]
  by_cases htrouble : s.cursor.trouble = none
  · refine (Scalar.leads_readPlain_wordy hbare (hsrc htrouble) inFlow margin).mono fun p c hp hc => ?_
    obtain ⟨cs, hkind, hcs⟩ := hp hc
    rw [hkind]
    exact ⟨rfl, cs, rfl, hcs⟩
  · refine (Scalar.leads_passes _ s.cursor).mono fun p c hp hc => ?_
    exact absurd (hp.2 hc).1 htrouble

/-- Reading a plain scalar keeps the calm. After a failure it is enough that the cursor passes
on. -/
theorem leaves_readPlain_calm (hbare : src.Bare) (hsrc : s.cursor.trouble = none → Within src s.cursor) :
    Leaves (Lulls src) s readPlain := by
  unfold readPlain
  have hsave : Carries Roams saveKey := inferInstance
  have hallow : Carries Roams (allowKey false) := inferInstance
  refine Leaves.bind_leads (leaves_of_carries saveKey) (hsave.leaves s).leads fun _ s₁ h₁ => ?_
  refine Leaves.bind_leads (leaves_of_carries (allowKey false)) (hallow.leaves s₁).leads fun _ s₂ h₂ => ?_
  rw [leaves_get_bind]
  have hpass : Passes s.cursor s₂.cursor := IsTrans.trans _ _ _ h₁.1 h₂.1
  have hsrc₂ : s₂.cursor.trouble = none → Within src s₂.cursor := fun h =>
    (hpass.2 h).2.2 src (hsrc (hpass.2 h).1)
  refine Leaves.bind_leads (leaves_of_carries _) (leads_readPlain_word hbare hsrc₂ _ _) fun p s₃ h₃ => ?_
  obtain ⟨t, broken⟩ := p
  have hpush : Carries Still (push t) := carries_push h₃.1
  dsimp only
  by_cases htrouble : s₃.cursor.trouble = none
  · have hword : Carries (Lulls src) (push t) := carries_push_word (h₃.2 htrouble)
    exact leaves_of_carries _
  · have hquiet : Carries Quiet (do
        if broken then allowKey true
        push t) := by
      dsimp only
      infer_instance
    have hpass₃ := (hquiet.leaves s₃).1
    exact ⟨hpass₃, fun h => absurd (hpass₃.2 h).1 htrouble⟩

/-- How a token is read that starts with a character that is no mark. -/
theorem readerOf_bare {c d : Char} (h : isBare c ∨ c = ':' ∧ isGap d = false) :
    readerOf false c d =
      if startsPlain false c d then readPlain else mark >>= fun m => fail .noToken m := by
  rcases h with hc | ⟨rfl, hd⟩
  · have hne : ∀ x ∈ indicators, (c == x) = false := by
      intro x hx
      rw [beq_eq_false_iff_ne]
      rintro rfl
      rw [isBare, List.contains_iff_mem.2 hx] at hc
      cases hc
    simp only [readerOf, hne '[' (by decide), hne ']' (by decide), hne '\x7b' (by decide),
      hne '\x7d' (by decide), hne ',' (by decide), hne '?' (by decide), hne ':' (by decide),
      hne '*' (by decide), hne '&' (by decide), hne '!' (by decide), hne '|' (by decide),
      hne '>' (by decide), hne '\'' (by decide), hne '"' (by decide), Bool.false_eq_true, if_false,
      Bool.false_and, Bool.or_self]
  · simp [readerOf, hd]

/-- A character that is no mark starts no sequence, directive or document marker. -/
theorem ne_of_bare {c d : Char} (h : isBare c ∨ c = ':' ∧ isGap d = false) :
    c ≠ '-' ∧ c ≠ '.' ∧ c ≠ '%' := by
  rcases h with hc | ⟨rfl, -⟩
  · refine ⟨?_, ?_, ?_⟩ <;> rintro rfl <;> exact absurd hc (by decide)
  · decide

theorem atDocumentMark_eq_false {c : Cursor} (hdash : c.ahead 0 ≠ '-') (hpoint : c.ahead 0 ≠ '.') :
    c.atDocumentMark = false := by
  unfold Cursor.ahead at hdash hpoint
  unfold Cursor.atDocumentMark
  rw [Bool.and_eq_false_iff]
  right
  split
  · rename_i hready
    rw [hready] at hdash
    exact absurd rfl hdash
  · rename_i hready
    rw [hready] at hpoint
    exact absurd rfl hpoint
  · rfl

theorem leaves_readTokenAt_calm (hbare : src.Bare) (hsrc : Within src s.cursor) (hlevel : s.flowLevel = 0)
    {c d : Char} (h : isBare c ∨ c = ':' ∧ isGap d = false) : Leaves (Lulls src) s (readTokenAt c d) := by
  have hdash : (c == '-' && isGap d) = false := by
    rw [beq_eq_false_iff_ne.2 (ne_of_bare h).1, Bool.false_and]
  have howner : Carries Roams (commentOwner c) := inferInstance
  rw [readTokenAt_eq, leaves_get_bind]
  simp only [hdash, hlevel, Bool.false_eq_true, if_false, Nat.lt_irrefl, decide_false]
  refine Leaves.bind_leads (leaves_of_carries _) (howner.leaves s).leads fun owner s₁ h₁ => ?_
  rw [readerOf_bare h]
  refine Leaves.bind ?_ inferInstance
  split
  · exact leaves_readPlain_calm hbare fun htrouble => (h₁.1.2 htrouble).2.2 src hsrc
  · exact leaves_of_carries _

theorem leaves_atHand_calm (hbare : src.Bare) (hready : s.cursor.ready ≠ [])
    (hhand : 4 ≤ s.cursor.ready.length ∨ s.cursor.blocks = []) : Leaves (Lulls src) s atHand := by
  refine leaves_lulls (leaves_atHand hready).1 fun htrouble hsrc hcalm => ?_
  unfold atHand
  rw [leaves_get_bind]
  dsimp only
  by_cases hend : (s.cursor.ahead 0 == endChar) = true
  · rw [if_pos hend]
    exact leaves_of_carries _
  · rw [if_neg hend]
    have hget : src.chars[s.cursor.mark.index]? = some (s.cursor.ahead 0) :=
      hsrc.ahead_zero.resolve_right fun h => hend (beq_iff_eq.2 h)
    have hmark : isBare (s.cursor.ahead 0) ∨ s.cursor.ahead 0 = ':' ∧ isGap (s.cursor.ahead 1) = false := by
      refine (hbare _ _ hget).imp_right fun ⟨hcolon, d, hnext, hd⟩ => ⟨hcolon, ?_⟩
      rwa [hsrc.ahead_eq (hhand.imp_left (by omega)) hnext]
    obtain ⟨hdash, hpoint, hpercent⟩ := ne_of_bare hmark
    rw [beq_eq_false_iff_ne.2 hpercent, Bool.and_false, if_neg Bool.false_ne_true,
      atDocumentMark_eq_false hdash hpoint, if_neg Bool.false_ne_true]
    exact leaves_readTokenAt_calm hbare hsrc hcalm.flowLevel hmark

theorem carries_atToken_calm (hbare : src.Bare) : Carries (Lulls src) atToken := by
  rw [atToken_eq]
  refine ⟨fun s => ?_⟩
  have hneed : Leads True (reading (Read.need 4)) s fun _ s' =>
      s'.cursor.ready ≠ [] ∧ (4 ≤ s'.cursor.ready.length ∨ s'.cursor.blocks = []) := by
    rw [leads_reading]
    exact (Read.leads_need_ready 3 s.cursor).and (Read.leads_need_reach 4 s.cursor)
  have hfirst : Leaves (Lulls src) s (reading (Read.need 4)) := leaves_of_carries _
  exact hfirst.bind_leads hneed fun _ s' hs' => leaves_atHand_calm hbare hs'.1 hs'.2

theorem carries_readToken_calm (hbare : src.Bare) : Carries (Lulls src) readToken := by
  refine carries_readToken_of (fun _ => inferInstance) inferInstance (fun m m' => ?_)
    (carries_atToken_calm hbare)
  exact carries_leaveBlocks_calm (by omega) m'

theorem carries_look_calm (hbare : src.Bare) : Carries (Lulls src) look := by
  have hahead := carries_readAhead_of (R := Lulls src) (fun _ => inferInstance)
    (carries_readToken_calm hbare)
  have hpeek := carries_peek_of hahead
  unfold look
  infer_instance

end Lulls

/-- The tokens of a bare source are words, as long as no failure is met. -/
theorem isWord_of_handed {src : Source} (hbare : src.Bare) {n : Nat} {ts : List Token} {s : TokenStream}
    (h : handed n (ofSource src) = (ts, s)) (htrouble : s.cursor.trouble = none) :
    Within src s.cursor ∧ Calm s ∧ ∀ t ∈ ts, t.kind.IsWord := by
  induction n generalizing ts s with
  | zero =>
    cases h
    exact ⟨Within.ofSource src, ⟨List.forall_mem_nil _, rfl, rfl⟩, List.forall_mem_nil _⟩
  | succ n ih =>
    cases hn : handed n (ofSource src) with
    | mk us s₁ =>
      -- what looking at a token does holds also where it fails
      have hread : ∀ s₂, stateOf (look s₁) = s₂ → s₂.cursor.trouble = none →
          Within src s₂.cursor ∧ Calm s₂ ∧ ∀ t ∈ us, t.kind.IsWord := by
        rintro s₂ rfl hs₂
        obtain ⟨hpass, hlulls⟩ := (carries_look_calm hbare).leaves s₁
        obtain ⟨htrouble₁, -, hwithin⟩ := hpass.2 hs₂
        obtain ⟨hsrc, hcalm, hwords⟩ := ih hn htrouble₁
        exact ⟨hwithin src hsrc, hlulls hs₂ hsrc hcalm, hwords⟩
      cases hlook : look s₁ with
      | error e s₂ =>
        rw [handed_error hn hlook] at h
        cases h
        exact hread _ (by rw [hlook]; rfl) htrouble
      | ok t s₂ =>
        rw [handed_concat hn hlook] at h
        cases h
        obtain ⟨hsrc, hcalm, hwords⟩ := hread s₂ (by rw [hlook]; rfl) htrouble
        obtain ⟨r, hqueue⟩ := List.head?_eq_some_iff.1 (looked_of_look hlook).first
        refine ⟨hsrc, ⟨fun u hu => hcalm.words u (List.mem_of_mem_drop hu), hcalm.flowLevel,
          hcalm.indent⟩, fun u hu => ?_⟩
        rcases List.mem_append.1 hu with hu | hu
        · exact hwords u hu
        · rw [List.mem_singleton.1 hu]
          exact hcalm.words t (hqueue ▸ List.mem_cons_self)

end TokenStream

end TreeLang.Yaml
