import Mathlib
import TreeLang.Text.Utf8

/-!
# Encoding and decoding of characters

`Utf8.chars?` and `Utf8.encode` are inverse to each other: a text has the characters `cs` exactly
when it is their encoding (`Utf8.chars?_eq_some_iff`).
-/

set_option autoImplicit false

namespace TreeLang.Utf8

/-! ## One character -/

/-- The scalar values are those below the surrogates and those above them. -/
theorem toNat_bounds (c : Char) : c.toNat < 0xD800 ∨ 0xDFFF < c.toNat ∧ c.toNat < 0x110000 :=
  c.valid

theorem toNat_charOfNat {n : Nat} (h : n < 0xD800 ∨ 0xDFFF < n ∧ n < 0x110000) :
    (Char.ofNat n).toNat = n := by
  unfold Char.ofNat
  rw [dif_pos h]
  rfl

/-- A byte behind the first one carries six bits. -/
theorem tail?_ofNat {n : Nat} (h : n < 64) : tail? (UInt8.ofNat (n + 0x80)) = some n := by
  have hn : (UInt8.ofNat (n + 0x80)).toNat = n + 0x80 := by
    rw [UInt8.toNat_ofNat']
    omega
  unfold tail?
  rw [if_pos]
  · rw [hn]
    congr 1
    omega
  · rw [UInt8.le_iff_toNat_le, UInt8.le_iff_toNat_le, hn]
    exact ⟨by simp, by simp; omega⟩

/-- The six bits tell the byte. -/
theorem ofNat_of_tail? {b : UInt8} {n : Nat} (h : tail? b = some n) :
    b = UInt8.ofNat (n + 0x80) ∧ n < 64 := by
  unfold tail? at h
  split at h
  · rename_i hb
    rw [UInt8.le_iff_toNat_le, UInt8.le_iff_toNat_le] at hb
    have h80 : (0x80 : UInt8).toNat = 0x80 := rfl
    have hBF : (0xBF : UInt8).toNat = 0xBF := rfl
    have hn := Option.some.inj h
    refine ⟨UInt8.toNat_inj.1 ?_, by omega⟩
    rw [UInt8.toNat_ofNat']
    omega
  · cases h

theorem ofNat_lt {n : Nat} (h : n < 256) (k : UInt8) : UInt8.ofNat n < k ↔ n < k.toNat := by
  rw [UInt8.lt_iff_toNat_lt, UInt8.toNat_ofNat', Nat.mod_eq_of_lt h]

theorem toNat_ofNat {n : Nat} (h : n < 256) : (UInt8.ofNat n).toNat = n := by
  rw [UInt8.toNat_ofNat', Nat.mod_eq_of_lt h]

/-- The code of a character gives the character, if it is in the range of its width. -/
theorem scalar?_toNat {low high : Nat} {c : Char} {n : Nat} (hn : n = c.toNat) (hlow : low ≤ n)
    (hhigh : n ≤ high) (rest : Text) : scalar? low high n rest = some (c, rest) := by
  subst hn
  have hc := toNat_bounds c
  unfold scalar?
  rw [if_pos ⟨hlow, hhigh, by omega⟩, Char.ofNat_toNat]

/-- The encoding of a character is decoded, whatever follows it. -/
theorem first?_utf8EncodeChar (c : Char) (rest : Text) :
    first? (String.utf8EncodeChar c ++ rest) = some (c, rest) := by
  have hc := toNat_bounds c
  have hval : c.val.toNat = c.toNat := rfl
  have h80 : (0x80 : UInt8).toNat = 0x80 := rfl
  have hE0 : (0xE0 : UInt8).toNat = 0xE0 := rfl
  have hF0 : (0xF0 : UInt8).toNat = 0xF0 := rfl
  have hF8 : (0xF8 : UInt8).toNat = 0xF8 := rfl
  unfold String.utf8EncodeChar
  simp only [hval]
  generalize hn : c.toNat = n at hc
  split
  · rename_i h1
    simp only [List.cons_append, List.nil_append, first?]
    rw [if_pos ((ofNat_lt (by omega) _).2 (by omega)), toNat_ofNat (by omega), ← hn,
      Char.ofNat_toNat]
  · split
    · rename_i h1 h2
      simp only [List.cons_append, List.nil_append, first?]
      rw [if_neg (by rw [ofNat_lt (by omega)]; omega), if_pos ((ofNat_lt (by omega) _).2 (by omega)),
        tail?_ofNat (by omega), toNat_ofNat (by omega)]
      exact scalar?_toNat (by omega) (by omega) (by omega) rest
    · split
      · rename_i h1 h2 h3
        simp only [List.cons_append, List.nil_append, first?]
        rw [if_neg (by rw [ofNat_lt (by omega)]; omega),
          if_neg (by rw [ofNat_lt (by omega)]; omega),
          if_pos ((ofNat_lt (by omega) _).2 (by omega)), tail?_ofNat (by omega),
          tail?_ofNat (by omega), toNat_ofNat (by omega)]
        exact scalar?_toNat (by omega) (by omega) (by omega) rest
      · rename_i h1 h2 h3
        simp only [List.cons_append, List.nil_append, first?]
        rw [if_neg (by rw [ofNat_lt (by omega)]; omega),
          if_neg (by rw [ofNat_lt (by omega)]; omega),
          if_neg (by rw [ofNat_lt (by omega)]; omega),
          if_pos ((ofNat_lt (by omega) _).2 (by omega)), tail?_ofNat (by omega),
          tail?_ofNat (by omega), tail?_ofNat (by omega), toNat_ofNat (by omega)]
        exact scalar?_toNat (by omega) (by omega) (by omega) rest

/-- A character that is given has the code, which is in the range. -/
theorem toNat_of_scalar? {low high n : Nat} {rest r : Text} {c : Char}
    (hhigh : high < 0x110000) (h : scalar? low high n rest = some (c, r)) :
    c.toNat = n ∧ low ≤ n ∧ n ≤ high ∧ rest = r := by
  unfold scalar? at h
  split at h
  · rename_i hn
    obtain ⟨rfl, rfl⟩ := Prod.mk.inj (Option.some.inj h)
    refine ⟨?_, hn.1, hn.2.1, rfl⟩
    exact toNat_charOfNat (by omega)
  · cases h

/-! A character of several bytes, from its bytes. -/

section Wide

variable {a b b' b'' : UInt8} {r rest : Text} {c : Char}

/-- A character that is cut from two bytes is written in these. -/
theorem eq_append_of_two
    (h : (do
      let i ← tail? b
      scalar? 0x80 0x7FF ((a.toNat - 0xC0) * 64 + i) r) = some (c, rest)) :
    a :: b :: r = String.utf8EncodeChar c ++ rest := by
  obtain ⟨i, hi, hs⟩ := Option.bind_eq_some_iff.1 h
  obtain ⟨rfl, hi⟩ := ofNat_of_tail? hi
  obtain ⟨hn, hmin, hmax, rfl⟩ := toNat_of_scalar? (by omega) hs
  have hval : c.val.toNat = (a.toNat - 0xC0) * 64 + i := hn
  unfold String.utf8EncodeChar
  simp only [hval]
  rw [if_neg (by omega), if_pos (by omega)]
  simp only [List.cons_append, List.nil_append, List.cons.injEq, and_true]
  refine ⟨UInt8.toNat_inj.1 ?_, congrArg UInt8.ofNat (by omega)⟩
  rw [toNat_ofNat (by omega)]
  omega

/-- A character that is cut from three bytes is written in these. -/
theorem eq_append_of_three (hlow : 0xE0 ≤ a.toNat) (hhigh : a.toNat < 0xF0)
    (h : (do
      let i ← tail? b
      let j ← tail? b'
      scalar? 0x800 0xFFFF (((a.toNat - 0xE0) * 64 + i) * 64 + j) r) = some (c, rest)) :
    a :: b :: b' :: r = String.utf8EncodeChar c ++ rest := by
  obtain ⟨i, hi, h⟩ := Option.bind_eq_some_iff.1 h
  obtain ⟨j, hj, hs⟩ := Option.bind_eq_some_iff.1 h
  obtain ⟨rfl, hi⟩ := ofNat_of_tail? hi
  obtain ⟨rfl, hj⟩ := ofNat_of_tail? hj
  obtain ⟨hn, hmin, hmax, rfl⟩ := toNat_of_scalar? (by omega) hs
  have hval : c.val.toNat = ((a.toNat - 0xE0) * 64 + i) * 64 + j := hn
  unfold String.utf8EncodeChar
  simp only [hval]
  rw [if_neg (by omega), if_neg (by omega), if_pos (by omega)]
  simp only [List.cons_append, List.nil_append, List.cons.injEq, and_true]
  refine ⟨UInt8.toNat_inj.1 ?_, congrArg UInt8.ofNat (by omega), congrArg UInt8.ofNat (by omega)⟩
  rw [toNat_ofNat (by omega)]
  omega

/-- A character that is cut from four bytes is written in these. -/
theorem eq_append_of_four (hlow : 0xF0 ≤ a.toNat) (hhigh : a.toNat < 0xF8)
    (h : (do
      let i ← tail? b
      let j ← tail? b'
      let k ← tail? b''
      scalar? 0x10000 0x10FFFF ((((a.toNat - 0xF0) * 64 + i) * 64 + j) * 64 + k) r) = some (c, rest)) :
    a :: b :: b' :: b'' :: r = String.utf8EncodeChar c ++ rest := by
  obtain ⟨i, hi, h⟩ := Option.bind_eq_some_iff.1 h
  obtain ⟨j, hj, h⟩ := Option.bind_eq_some_iff.1 h
  obtain ⟨k, hk, hs⟩ := Option.bind_eq_some_iff.1 h
  obtain ⟨rfl, hi⟩ := ofNat_of_tail? hi
  obtain ⟨rfl, hj⟩ := ofNat_of_tail? hj
  obtain ⟨rfl, hk⟩ := ofNat_of_tail? hk
  obtain ⟨hn, hmin, hmax, rfl⟩ := toNat_of_scalar? (by omega) hs
  have hval : c.val.toNat = (((a.toNat - 0xF0) * 64 + i) * 64 + j) * 64 + k := hn
  unfold String.utf8EncodeChar
  simp only [hval]
  rw [if_neg (by omega), if_neg (by omega), if_neg (by omega)]
  simp only [List.cons_append, List.nil_append, List.cons.injEq, and_true]
  refine ⟨UInt8.toNat_inj.1 ?_, congrArg UInt8.ofNat (by omega), congrArg UInt8.ofNat (by omega),
    congrArg UInt8.ofNat (by omega)⟩
  rw [toNat_ofNat (by omega)]
  omega

end Wide

/-- A text whose first character is `c` starts with the encoding of `c`. -/
theorem eq_append_of_first? {t rest : Text} {c : Char} (h : first? t = some (c, rest)) :
    t = String.utf8EncodeChar c ++ rest := by
  have h80 : (0x80 : UInt8).toNat = 0x80 := rfl
  have hE0 : (0xE0 : UInt8).toNat = 0xE0 := rfl
  have hF0 : (0xF0 : UInt8).toNat = 0xF0 := rfl
  have hF8 : (0xF8 : UInt8).toNat = 0xF8 := rfl
  cases t with
  | nil => cases h
  | cons a r =>
    simp only [first?, UInt8.lt_iff_toNat_lt, h80, hE0, hF0, hF8] at h
    -- the first byte tells the width
    split at h
    · rename_i h1
      obtain ⟨rfl, rfl⟩ := Prod.mk.inj (Option.some.inj h)
      have hval : (Char.ofNat a.toNat).val.toNat = a.toNat := toNat_charOfNat (by omega)
      unfold String.utf8EncodeChar
      simp only [hval]
      rw [if_pos (by omega), UInt8.ofNat_toNat]
      rfl
    · split at h
      · match r, h with
        | b :: r, h => exact eq_append_of_two h
      · rename_i h2
        split at h
        · rename_i h3
          match r, h with
          | b :: b' :: r, h => exact eq_append_of_three (by omega) h3 h
        · rename_i h3
          split at h
          · rename_i h4
            match r, h with
            | b :: b' :: b'' :: r, h => exact eq_append_of_four (by omega) h4 h
          · cases h

/-- A character takes at least one byte. -/
theorem utf8EncodeChar_ne_nil (c : Char) : String.utf8EncodeChar c ≠ [] := by
  intro h
  have hlen := String.length_utf8EncodeChar c
  have hpos := c.utf8Size_pos
  rw [h, List.length_nil] at hlen
  omega

@[simp] theorem encode_nil : encode [] = [] := rfl

@[simp] theorem encode_cons (c : Char) (cs : List Char) :
    encode (c :: cs) = String.utf8EncodeChar c ++ encode cs := rfl

@[simp] theorem encode_append (cs ds : List Char) : encode (cs ++ ds) = encode cs ++ encode ds :=
  List.flatMap_append

/-- There are no more characters than bytes. -/
theorem length_le_encode (cs : List Char) : cs.length ≤ (encode cs).length := by
  induction cs with
  | nil => exact Nat.le_refl 0
  | cons c cs ih =>
    have hc := List.length_pos_iff.2 (utf8EncodeChar_ne_nil c)
    rw [encode_cons, List.length_append, List.length_cons]
    omega

/-- The pieces of an encoding are the characters, when there is room for all of them. -/
theorem piecesUpTo_encode (cs : List Char) :
    ∀ fuel, cs.length ≤ fuel → piecesUpTo fuel (encode cs) = cs.map Piece.char := by
  induction cs with
  | nil =>
    intro fuel _
    cases fuel <;> rfl
  | cons c cs ih =>
    intro fuel hfuel
    cases fuel with
    | zero => cases hfuel
    | succ fuel =>
      have hfirst := first?_utf8EncodeChar c (encode cs)
      rw [encode_cons]
      generalize hw : String.utf8EncodeChar c ++ encode cs = t at hfirst
      cases t with
      | nil => cases hfirst
      | cons b r =>
        simp only [piecesUpTo, hfirst]
        rw [ih fuel (Nat.le_of_succ_le_succ hfuel)]
        rfl

theorem charsOf?_map_char (cs : List Char) : charsOf? (cs.map Piece.char) = some cs := by
  induction cs with
  | nil => rfl
  | cons c cs ih => simp [charsOf?, ih]

/-- The bytes of characters are read as these. -/
theorem chars?_encode (cs : List Char) : chars? (encode cs) = some cs := by
  unfold chars? pieces
  rw [piecesUpTo_encode cs _ (length_le_encode cs), charsOf?_map_char]

/-- No byte is lost by cutting a text into pieces. -/
theorem encode_of_charsOf? : ∀ (fuel : Nat) (t : Text) (cs : List Char), t.length ≤ fuel →
    charsOf? (piecesUpTo fuel t) = some cs → encode cs = t := by
  intro fuel
  induction fuel with
  | zero =>
    intro t cs hlen h
    obtain rfl := List.length_eq_zero_iff.1 (Nat.le_zero.1 hlen)
    obtain rfl : [] = cs := Option.some.inj h
    rfl
  | succ fuel ih =>
    intro t cs hlen h
    cases t with
    | nil =>
      obtain rfl : [] = cs := Option.some.inj h
      rfl
    | cons b r =>
      simp only [piecesUpTo] at h
      cases hf : first? (b :: r) with
      | none =>
        rw [hf] at h
        cases h
      | some p =>
        obtain ⟨c, rest⟩ := p
        rw [hf] at h
        obtain ⟨ds, hds, rfl⟩ := Option.map_eq_some_iff.1 h
        -- the first character takes its bytes, and the fuel is enough for the rest
        have heq := eq_append_of_first? hf
        have hpos := List.length_pos_iff.2 (utf8EncodeChar_ne_nil c)
        have hl := congrArg List.length heq
        rw [List.length_append, List.length_cons] at hl
        rw [List.length_cons] at hlen
        rw [encode_cons, ih rest ds (by omega) hds, ← heq]

/-- A text is read as some characters if it is what they are written as. -/
theorem chars?_eq_some_iff {t : Text} {cs : List Char} : chars? t = some cs ↔ t = encode cs := by
  constructor
  · intro h
    exact (encode_of_charsOf? _ t cs (Nat.le_refl _) h).symm
  · rintro rfl
    exact chars?_encode cs

/-- The bytes of a string are the encoding of its characters. -/
theorem utf8_eq_encode (s : String) : utf8 s = encode s.toList := by
  show s.toByteArray.data.toList = _
  rw [← String.utf8Encode_toList, List.utf8Encode, List.data_toByteArray]
  rfl

/-- Different characters are encoded differently. -/
theorem encode_injective {cs ds : List Char} (h : encode cs = encode ds) : cs = ds := by
  have hc := chars?_encode cs
  rw [h, chars?_encode] at hc
  exact (Option.some.inj hc).symm

end TreeLang.Utf8
