import TreeLang.Proofs.Text.Decimal
import TreeLang.Proofs.Yaml.PlainScalar

/-!
# Decimal numbers are written plainly

No digit has a meaning of its own anywhere, and a minus sign has one only in front of a gap. So the
decimal form of a machine integer is written plainly, inside flow collections and outside
(`Style.ofInt64_eq_encode`, `Style.IsDecimal.choose`).
-/

set_option autoImplicit false

namespace TreeLang.Yaml.Style

open Utf8 (encode)

/-- The decimal digits. -/
def digits : List Char := ['0', '1', '2', '3', '4', '5', '6', '7', '8', '9']

/-- Digits, perhaps after a minus sign. -/
inductive IsDecimal : List Char → Prop
  | digit {c : Char} {cs : List Char} (hc : c ∈ digits) (hcs : ∀ d ∈ cs, d ∈ digits) :
      IsDecimal (c :: cs)
  | minus {c : Char} {cs : List Char} (hc : c ∈ digits) (hcs : ∀ d ∈ cs, d ∈ digits) :
      IsDecimal ('-' :: c :: cs)

theorem IsDecimal.mem {cs : List Char} (h : IsDecimal cs) : ∀ c ∈ cs, c ∈ '-' :: digits := by
  intro c hc
  cases h with
  | digit hd hcs =>
    rcases List.mem_cons.1 hc with rfl | hc
    · exact List.mem_cons_of_mem _ hd
    · exact List.mem_cons_of_mem _ (hcs c hc)
  | minus hd hcs =>
    rcases List.mem_cons.1 hc with rfl | hc
    · exact List.mem_cons_self
    · rcases List.mem_cons.1 hc with rfl | hc
      · exact List.mem_cons_of_mem _ hd
      · exact List.mem_cons_of_mem _ (hcs c hc)

/-- Behind the first character only that character and what is before it matter. -/
theorem spotsFrom_false {s : Spot} {cs : List Char} :
    ∀ {afterGap : Bool}, s ∈ spotsFrom false afterGap cs → s.char ∈ cs ∧ s.isFirst = false := by
  induction cs with
  | nil =>
    intro afterGap h
    cases h
  | cons c cs ih =>
    intro afterGap h
    rw [spotsFrom] at h
    rcases List.mem_cons.1 h with rfl | h
    · exact ⟨List.mem_cons_self, rfl⟩
    · exact ⟨List.mem_cons_of_mem _ (ih h).1, (ih h).2⟩

/-- Whether a spot has a meaning of its own, inside flow collections or outside. -/
def Spot.isIndicator (inFlow : Bool) (s : Spot) : Bool :=
  (if inFlow then Spot.isFlowIndicator else Spot.isBlockIndicator) s

theorem not_isIndicator_digit {c : Char} (hc : c ∈ digits) (inFlow isFirst afterGap endsWord : Bool) :
    Spot.isIndicator inFlow ⟨c, isFirst, afterGap, endsWord⟩ = false := by
  have hall : ∀ c ∈ digits, ∀ inFlow isFirst afterGap endsWord : Bool,
      Spot.isIndicator inFlow ⟨c, isFirst, afterGap, endsWord⟩ = false := by
    unfold Spot.isIndicator Spot.isFlowIndicator Spot.isBlockIndicator digits
    rw [Scalar.leading_eq, Scalar.enclosing_eq]
    simp only [List.forall_mem_cons, List.not_mem_nil, false_implies, implies_true, and_true]
    decide
  exact hall c hc inFlow isFirst afterGap endsWord

theorem not_isIndicator_minus (inFlow afterGap : Bool) :
    Spot.isIndicator inFlow ⟨'-', true, afterGap, false⟩ = false := by
  unfold Spot.isIndicator Spot.isFlowIndicator Spot.isBlockIndicator
  rw [Scalar.leading_eq]
  cases inFlow <;> cases afterGap <;> decide

/-- No character of a number is an indicator. Digits are none anywhere, and the sign would be one in
front of a blank only. -/
theorem IsDecimal.not_isIndicator {cs : List Char} (h : IsDecimal cs) (inFlow : Bool) :
    ∀ s ∈ spots cs, s.isIndicator inFlow = false := by
  have hrest : ∀ {ds : List Char} {afterGap : Bool}, (∀ d ∈ ds, d ∈ digits) →
      ∀ s ∈ spotsFrom false afterGap ds, s.isIndicator inFlow = false := by
    intro ds afterGap hds s hs
    exact not_isIndicator_digit (hds _ (spotsFrom_false hs).1) inFlow _ _ _
  intro s hs
  cases h with
  | digit hc hcs =>
    rw [spots, spotsFrom] at hs
    rcases List.mem_cons.1 hs with rfl | hs
    · exact not_isIndicator_digit hc inFlow _ _ _
    · exact hrest hcs s hs
  | @minus c cs hc hcs =>
    rw [spots, spotsFrom] at hs
    rcases List.mem_cons.1 hs with rfl | hs
    · have hblank : ∀ c ∈ digits, isSpaceOrTab c = false := by
        unfold digits
        simp only [List.forall_mem_cons, List.not_mem_nil, false_implies, implies_true, and_true]
        decide
      rw [List.head?_cons, Option.map_some, Option.getD_some, hblank c hc]
      exact not_isIndicator_minus inFlow true
    · exact hrest (List.forall_mem_cons.2 ⟨hc, hcs⟩) s hs

theorem IsDecimal.not_startsLikeMarker {cs : List Char} (h : IsDecimal cs) :
    startsLikeMarker cs = false := by
  have hdash : '-' ∉ digits := by decide
  have hpoint : '.' ∉ digits := by decide
  unfold startsLikeMarker
  split
  · cases h with
    | digit hc _ => exact absurd hc hdash
    | minus hc _ => exact absurd hc hdash
  · cases h with
    | digit hc _ => exact absurd hc hpoint
  · rfl

/-- A decimal number is written plainly. -/
theorem IsDecimal.allowsPlain {cs : List Char} (h : IsDecimal cs) (inFlow : Bool) :
    allowsPlain inFlow cs = true := by
  -- every reason not to write it plainly is refuted by its characters
  have hchars : ∀ c ∈ '-' :: digits,
      isSpace c = false ∧ isBreak c = false ∧ c ≠ '\t' ∧ isSpecial c = false := by
    unfold digits
    simp only [List.forall_mem_cons, List.not_mem_nil, false_implies, implies_true, and_true]
    decide
  have hmem : ∀ c ∈ cs, isSpace c = false ∧ isBreak c = false ∧ c ≠ '\t' ∧ isSpecial c = false :=
    fun c hc => hchars c (h.mem c hc)
  have hne : cs.isEmpty = false := by cases h <;> rfl
  have hstart : startsIn isSpace cs = false := by
    unfold startsIn
    cases hhead : cs.head? with
    | none => rfl
    | some c => exact (hmem c (List.mem_of_head? hhead)).1
  have hend : endsIn isSpace cs = false := by
    unfold endsIn
    cases hlast : cs.getLast? with
    | none => rfl
    | some c => exact (hmem c (List.mem_of_getLast? hlast)).1
  have hspots : (spots cs).any (if inFlow then Spot.isFlowIndicator else Spot.isBlockIndicator) = false :=
    List.any_eq_false.2 fun s hs => by
      have := h.not_isIndicator inFlow s hs
      unfold Spot.isIndicator at this
      rw [this]
      exact Bool.false_ne_true
  have hbreak : cs.any isBreak = false :=
    List.any_eq_false.2 fun c hc => by rw [(hmem c hc).2.1]; exact Bool.false_ne_true
  have hspecial : cs.any isSpecial = false :=
    List.any_eq_false.2 fun c hc => by rw [(hmem c hc).2.2.2]; exact Bool.false_ne_true
  have htab : cs.contains '\t' = false := by
    rw [List.contains_eq_mem, decide_eq_false_iff_not]
    exact fun hc => (hmem _ hc).2.2.1 rfl
  rw [Style.allowsPlain, h.not_startsLikeMarker, hspots, hstart, hend, hbreak, htab, hspecial, hne,
    Bool.and_false]
  rfl

theorem IsDecimal.choose {cs : List Char} (h : IsDecimal cs) {tag : Text} (htag : tag ≠ Tag.str)
    (inFlow : Bool) : choose inFlow tag cs = .plain := by
  have hfeed : cs.contains '\n' = false := by
    have hnone : '\n' ∉ '-' :: digits := by decide
    rw [List.contains_eq_mem, decide_eq_false_iff_not]
    exact fun hc => hnone (h.mem _ hc)
  unfold Style.choose
  rw [hfeed, if_neg Bool.false_ne_true, if_neg fun hstr => htag hstr.1, h.allowsPlain, if_pos rfl]

theorem digit_encode {b : UInt8} (h : Scalar.isDigit b) : ∃ c ∈ digits, [b] = encode [c] := by
  have hall : ∀ n, n < 10 → Char.ofNat (48 + n) ∈ digits ∧
      [UInt8.ofNat (48 + n)] = encode [Char.ofNat (48 + n)] := by
    intro n hn
    interval_cases n <;> exact ⟨by decide, by decide⟩
  simp only [Scalar.isDigit, Bool.and_eq_true, decide_eq_true_eq, UInt8.le_iff_toNat_le] at h
  have hlow : 48 ≤ b.toNat := h.1
  have hhigh : b.toNat ≤ 57 := h.2
  obtain ⟨hc, hb⟩ := hall (b.toNat - 48) (by omega)
  refine ⟨_, hc, ?_⟩
  rw [← hb, Nat.add_sub_cancel' hlow, UInt8.ofNat_toNat]

theorem digits_encode {t : Text} (h : ∀ b ∈ t, Scalar.isDigit b) :
    ∃ cs : List Char, (∀ c ∈ cs, c ∈ digits) ∧ t = encode cs := by
  induction t with
  | nil => exact ⟨[], List.forall_mem_nil _, rfl⟩
  | cons b t ih =>
    obtain ⟨hb, ht⟩ := List.forall_mem_cons.1 h
    obtain ⟨c, hc, hbc⟩ := digit_encode hb
    obtain ⟨cs, hcs, rfl⟩ := ih ht
    refine ⟨c :: cs, List.forall_mem_cons.2 ⟨hc, hcs⟩, ?_⟩
    rw [← List.singleton_append, hbc, ← Utf8.encode_append, List.singleton_append]

/-- A machine integer is written as a decimal number. -/
theorem ofInt64_eq_encode (v : Int64) : ∃ cs, IsDecimal cs ∧ Text.ofInt64 v = encode cs := by
  have hnat : ∀ n, ∃ c cs, c ∈ digits ∧ (∀ d ∈ cs, d ∈ digits) ∧ Text.ofNat n = encode (c :: cs) := by
    intro n
    obtain ⟨ds, hds, htext⟩ := digits_encode (Text.isDigit_of_mem_ofNat n)
    cases ds with
    | nil =>
      obtain ⟨d, r, hr, -⟩ := Text.digitsOnto_eq_cons (n + 1) n [] (Nat.lt_succ_self n)
      rw [Text.ofNat, hr] at htext
      cases htext
    | cons c cs =>
      obtain ⟨hc, hcs⟩ := List.forall_mem_cons.1 hds
      exact ⟨c, cs, hc, hcs, htext⟩
  unfold Text.ofInt64
  cases v.toInt with
  | ofNat n =>
    obtain ⟨c, cs, hc, hcs, htext⟩ := hnat n
    exact ⟨c :: cs, .digit hc hcs, htext⟩
  | negSucc n =>
    obtain ⟨c, cs, hc, hcs, htext⟩ := hnat (n + 1)
    refine ⟨'-' :: c :: cs, .minus hc hcs, ?_⟩
    rw [Text.ofInt, htext]
    rfl

end TreeLang.Yaml.Style
