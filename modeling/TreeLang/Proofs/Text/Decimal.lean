import Mathlib
import TreeLang.Yaml.Scalar

/-!
# Decimal forms read back

The decimal form of an integer has a minus sign or none, and digits of which the first is not zero
unless it is the only one. So it is read in base ten, it is no word that stands for something else
and no point in time, and it says the integer that it is the form of
(`Yaml.Scalar.meaningWith_ofInt`) if that is a machine integer.
-/

set_option autoImplicit false

namespace TreeLang

namespace Text

/-- The byte of a digit. -/
theorem digit_toNat {d : Nat} (h : d < 10) : (digit d).toNat = 48 + d := by
  simp only [digit, Nat.toUInt8, UInt8.toNat_ofNat']
  omega

theorem isDigit_digit {d : Nat} (h : d < 10) : Yaml.Scalar.isDigit (digit d) := by
  have hd := digit_toNat h
  simp only [Yaml.Scalar.isDigit, Bool.and_eq_true, decide_eq_true_eq, UInt8.le_iff_toNat_le, hd]
  simp only [UInt8.reduceToNat]
  omega

/-- A digit is read as its value. -/
theorem digitValue?_digit {d : Nat} (h : d < 10) : Integer.digitValue? (digit d) = some d := by
  have hd := digit_toNat h
  simp only [Integer.digitValue?, UInt8.le_iff_toNat_le, hd]
  simp only [UInt8.reduceToNat]
  rw [if_pos (by omega)]
  congr 1
  omega

theorem digit_ne {d : Nat} (h : d < 10) {b : UInt8} (hb : ¬ Yaml.Scalar.isDigit b) : digit d ≠ b := by
  rintro rfl
  exact hb (isDigit_digit h)

/-- The digits of a number start with a digit, which is not zero unless the number is. -/
theorem digitsOnto_eq_cons : ∀ (fuel n : Nat) (tail : Text), n < fuel →
    ∃ d r, digitsOnto fuel n tail = digit d :: r ∧ d < 10 ∧ (d = 0 → n = 0)
  | 0, _, _, h => by omega
  | fuel + 1, n, tail, h => by
    unfold digitsOnto
    by_cases hn : n < 10
    · rw [if_pos hn]
      exact ⟨n, tail, rfl, hn, id⟩
    · rw [if_neg hn]
      obtain ⟨d, r, hr, hd, hz⟩ :=
        digitsOnto_eq_cons fuel (n / 10) (digit (n % 10) :: tail) (by omega)
      exact ⟨d, r, hr, hd, fun h => by have := hz h; omega⟩

/-- The digits of a number are digits. -/
theorem isDigit_of_mem_digitsOnto : ∀ (fuel n : Nat) (tail : Text),
    (∀ b ∈ tail, Yaml.Scalar.isDigit b) → ∀ b ∈ digitsOnto fuel n tail, Yaml.Scalar.isDigit b
  | 0, _, _, h => h
  | fuel + 1, n, tail, h => by
    unfold digitsOnto
    by_cases hn : n < 10
    · rw [if_pos hn]
      intro b hb
      rcases List.mem_cons.1 hb with rfl | hb
      · exact isDigit_digit hn
      · exact h b hb
    · rw [if_neg hn]
      refine isDigit_of_mem_digitsOnto fuel (n / 10) _ fun b hb => ?_
      rcases List.mem_cons.1 hb with rfl | hb
      · exact isDigit_digit (by omega)
      · exact h b hb

/-- A natural number is written in digits. -/
theorem isDigit_of_mem_ofNat (n : Nat) : ∀ b ∈ ofNat n, Yaml.Scalar.isDigit b :=
  isDigit_of_mem_digitsOnto (n + 1) n [] (by simp)

end Text

namespace Integer

open Text

/-- Reading the digits of a number in base ten. -/
theorem readDigits_digitsOnto : ∀ (fuel n : Nat) (tail : Text), n < fuel → n ≤ maxUnsigned →
    readDigits 10 0 (digitsOnto fuel n tail) = readDigits 10 n tail
  | 0, _, _, h, _ => by omega
  | fuel + 1, n, tail, h, hmax => by
    have hone : ∀ {a d : Nat} (r : Text), d < 10 → a * 10 + d ≤ maxUnsigned →
        readDigits 10 a (digit d :: r) = readDigits 10 (a * 10 + d) r := by
      intro a d r hd ha
      have h95 : digit d ≠ 95 := digit_ne hd (by decide)
      rw [readDigits, if_neg h95, digitValue?_digit hd]
      simp only
      rw [if_neg (by omega), if_neg (by omega)]
    unfold digitsOnto
    by_cases hn : n < 10
    · rw [if_pos hn, hone tail hn (by omega)]
      simp
    · rw [if_neg hn, readDigits_digitsOnto fuel (n / 10) _ (by omega) (by omega),
        hone tail (by omega) (by omega)]
      congr 1
      omega

/-- Without a leading zero the base is ten. -/
theorem splitBase_of_ne {b : UInt8} (hb : b ≠ 48) (r : Text) : splitBase (b :: r) = (10, b :: r) := by
  unfold splitBase
  split
  · simp_all
  · simp_all
  · rfl

/-- A natural number is read back. It is written without a leading zero, so the base is ten, and its
digits are read one after the other. -/
theorem readNat_ofNat {n : Nat} (hn : n ≤ maxUnsigned) : readNat (Text.ofNat n) = .ok n := by
  have hdigits := isDigit_of_mem_ofNat n
  have h95 : (Text.ofNat n).contains 95 = false := by
    rw [Bool.eq_false_iff]
    exact fun h => absurd (hdigits 95 (List.contains_iff_mem.1 h)) (by decide)
  by_cases hz : n = 0
  · subst hz
    rfl
  · obtain ⟨d, r, hr, hd, hd0⟩ := digitsOnto_eq_cons (n + 1) n [] (by omega)
    have hread : readDigits 10 0 (Text.ofNat n) = .ok n :=
      readDigits_digitsOnto (n + 1) n [] (by omega) hn
    have hne : digit d ≠ 48 := by
      intro h
      have := digit_toNat hd
      rw [h] at this
      simp at this
      omega
    have hcons : Text.ofNat n = digit d :: r := hr
    rw [hcons] at h95 hread ⊢
    unfold readNat
    rw [splitBase_of_ne hne]
    simp only [List.isEmpty_cons, hread, h95]
    rfl

/-- A number is read back, with its sign if it has one. -/
theorem readInt_ofInt {v : Int} (hlow : -(signedBound : Int) ≤ v) (hhigh : v < signedBound) :
    readInt (Text.ofInt v) = .ok v := by
  have hmax : signedBound ≤ maxUnsigned := by decide
  cases v with
  | ofNat n =>
    have hn : n < signedBound := by simpa using hhigh
    obtain ⟨d, r, hr, hd, -⟩ := digitsOnto_eq_cons (n + 1) n [] (by omega)
    have hread := readNat_ofNat (n := n) (by omega)
    have hcons : Text.ofNat n = digit d :: r := hr
    show readSigned readNat (Text.ofNat n) = _
    rw [hcons] at hread ⊢
    unfold readSigned
    split
    · rename_i heq
      exact absurd (List.cons.inj heq).1 (digit_ne hd (by decide))
    · rename_i heq
      exact absurd (List.cons.inj heq).1 (digit_ne hd (by decide))
    · rw [hread]
      show withSign false n = _
      simp only [withSign, Bool.false_eq_true, if_false]
      rw [if_neg (by omega)]
      rfl
  | negSucc n =>
    have hn : n + 1 ≤ signedBound := by omega
    show (readNat (Text.ofNat (n + 1)) >>= withSign true) = _
    rw [readNat_ofNat (by omega)]
    show withSign true (n + 1) = _
    simp only [withSign, if_true]
    rw [if_neg (by omega)]
    rfl

end Integer

namespace Yaml.Scalar

open Text Integer

/-- Whether a text starts like the decimal form of an integer. -/
def startsDecimal : Text → Bool
  | 45 :: d :: _ => isDigit d
  | d :: _ => isDigit d
  | [] => false

/-- A number starts with a digit or a sign. -/
theorem startsDecimal_ofInt (v : Int) : startsDecimal (Text.ofInt v) := by
  cases v with
  | ofNat n =>
    obtain ⟨d, r, hr, hd, -⟩ := digitsOnto_eq_cons (n + 1) n [] (by omega)
    have hcons : Text.ofInt (.ofNat n) = digit d :: r := hr
    rw [hcons]
    unfold startsDecimal
    split
    · rename_i heq
      exact absurd (List.cons.inj heq).1 (digit_ne hd (by decide))
    · rename_i heq
      rw [← (List.cons.inj heq).1]
      exact isDigit_digit hd
    · rename_i heq
      cases heq
  | negSucc n =>
    obtain ⟨d, r, hr, hd, -⟩ := digitsOnto_eq_cons (n + 1 + 1) (n + 1) [] (by omega)
    have hcons : Text.ofInt (.negSucc n) = 45 :: digit d :: r := congrArg (45 :: ·) hr
    rw [hcons]
    exact isDigit_digit hd

/-- No word that stands for something else starts like the decimal form of an integer. -/
theorem lookup_words_eq_none {t : Text} (h : startsDecimal t) : words.lookup t = none := by
  have hall : ∀ p ∈ words, ¬ startsDecimal p.1 := by decide
  rw [List.lookup_eq_none_iff]
  intro p hp
  rw [bne_iff_ne]
  rintro rfl
  exact hall p hp h

/-- A number is written without underscores. -/
theorem filter_ofInt (v : Int) : (Text.ofInt v).filter (· != 95) = Text.ofInt v := by
  rw [List.filter_eq_self]
  have hdigits : ∀ n, ∀ b ∈ Text.ofNat n, (b != 95) = true := by
    intro n b hb
    have := isDigit_of_mem_ofNat n b hb
    rw [bne_iff_ne]
    rintro rfl
    exact absurd this (by decide)
  cases v with
  | ofNat n => exact hdigits n
  | negSucc n =>
    intro b hb
    rcases List.mem_cons.1 hb with rfl | hb
    · decide
    · exact hdigits (n + 1) b hb

/-- A date has four digits and a dash behind them. -/
theorem date?_eq_none {t : Text}
    (h : (t.takeWhile isDigit).length = 4 → byte? 45 (t.drop 4) = none) : date? t = none := by
  unfold date?
  by_cases hl : (t.takeWhile isDigit).length = 4
  · simp [hl, h hl]
  · simp [hl]

/-- A text of digits, perhaps after a minus sign, is no point in time. -/
theorem isTimestamp_ofInt (v : Int) : isTimestamp (Text.ofInt v) = false := by
  have hdate : date? (Text.ofInt v) = none := by
    refine date?_eq_none fun h => ?_
    cases v with
    | ofNat n =>
      have hall : (Text.ofNat n).takeWhile isDigit = Text.ofNat n :=
        List.takeWhile_eq_self_iff.2 (isDigit_of_mem_ofNat n)
      have hlen : (Text.ofNat n).length = 4 := hall ▸ h
      show byte? 45 ((Text.ofNat n).drop 4) = none
      rw [List.drop_eq_nil_of_le (by omega)]
      rfl
    | negSucc n => cases h
  unfold isTimestamp
  rw [hdate]

/-- The decimal form of a machine integer says that integer, also where points in time are looked
for. -/
theorem meaningWith_ofInt (dated : Bool) {v : Int} (hlow : -(signedBound : Int) ≤ v)
    (hhigh : v < signedBound) : meaningWith dated (Text.ofInt v) = .int v := by
  have hstart := startsDecimal_ofInt v
  have hread := readInt_ofInt hlow hhigh
  have hfilter := filter_ofInt v
  have htime := isTimestamp_ofInt v
  unfold meaningWith
  rw [lookup_words_eq_none hstart]
  generalize Text.ofInt v = t at hstart hread hfilter htime
  cases t with
  | nil => cases hstart
  | cons b r =>
    have hb : b ≠ 46 ∧ (isDigit b ∨ b = 43 ∨ b = 45) := by
      by_cases h45 : b = 45
      · subst h45
        exact ⟨by decide, Or.inr (Or.inr rfl)⟩
      · have hd : isDigit b := by
          unfold startsDecimal at hstart
          split at hstart
          · rename_i heq
            exact absurd (List.cons.inj heq).1 h45
          · rename_i heq
            rw [(List.cons.inj heq).1]
            exact hstart
          · cases hstart
        refine ⟨?_, Or.inl hd⟩
        rintro rfl
        exact absurd hd (by decide)
    simp only [if_neg hb.1, if_pos hb.2, htime, Bool.and_false, Bool.false_eq_true, if_false]
    unfold number
    simp only [hfilter, hread, machineInt?]

/-- A literal is read back. -/
theorem toInt64_ofInt64 (place : Place) (v : Int64) : toInt64 place (Text.ofInt64 v) = .ok v := by
  have hlow : -(signedBound : Int) ≤ v.toInt := Int64.le_toInt v
  have hhigh : v.toInt < (signedBound : Int) := Int64.toInt_lt v
  unfold toInt64 Text.ofInt64
  rw [meaningWith_ofInt false hlow hhigh]
  simp only [if_pos hhigh, Int64.ofInt_toInt]

/-- The text of a number means the number. -/
theorem meaning_ofInt64 (v : Int64) : meaning (Text.ofInt64 v) = .int v.toInt :=
  meaningWith_ofInt true (Int64.le_toInt v) (Int64.toInt_lt v)

end Yaml.Scalar

end TreeLang
