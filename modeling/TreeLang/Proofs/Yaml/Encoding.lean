import TreeLang.Proofs.Yaml.Source
import TreeLang.Proofs.Yaml.Passage

/-!
# The bytes of a source

The characters of a source that is not damaged are the ones its bytes encode: after the announcement
the bytes are the encoding of the characters, in the encoding that is announced, and every character
is one that a source may hold (`Source.encode_chars_ofBytes`).
-/

set_option autoImplicit false

namespace TreeLang.Yaml.Source

open Utf8 (toNat_bounds toNat_charOfNat toNat_ofNat)

/-! ## Encodings -/

/-- The sixteen-bit units of a character: one, or a high and a low surrogate. -/
def units (c : Char) : List Nat :=
  if c.toNat < 0x10000 then [c.toNat]
  else [0xD800 + (c.toNat - 0x10000) / 0x400, 0xDC00 + c.toNat % 0x400]

/-- The two bytes of a unit. -/
def unitBytes (big : Bool) (n : Nat) : Text :=
  if big then [UInt8.ofNat (n / 256), UInt8.ofNat (n % 256)]
  else [UInt8.ofNat (n % 256), UInt8.ofNat (n / 256)]

namespace Encoding

/-- The bytes of a character. -/
def char : Encoding → Char → Text
  | .utf8, c => String.utf8EncodeChar c
  | .utf16Little, c => (units c).flatMap (unitBytes false)
  | .utf16Big, c => (units c).flatMap (unitBytes true)

/-- The bytes of characters, one after the other. -/
def encode (e : Encoding) (cs : List Char) : Text := cs.flatMap e.char

theorem encode_append (e : Encoding) (cs ds : List Char) :
    e.encode (cs ++ ds) = e.encode cs ++ e.encode ds :=
  List.flatMap_append

end Encoding

/-! ## One character -/

theorem isAllowed_toNat {n : Nat} (h : isAllowed n) : (Char.ofNat n).toNat = n := by
  apply toNat_charOfNat
  unfold isAllowed at h
  simp only [Bool.or_eq_true, Bool.and_eq_true, beq_iff_eq, decide_eq_true_eq] at h
  omega

/-- A byte that continues a character has six bits of it. -/
theorem exists_of_continued {k n m : Nat} {r : Text} (hlen : k + 1 ≤ r.length)
    (h : continued n (r.take (k + 1)) = .ok m) :
    ∃ b r' i, r = b :: r' ∧ i < 64 ∧ Utf8.tail? b = some i ∧ continued (n * 64 + i) (r'.take k) = .ok m := by
  cases r with
  | nil => cases hlen
  | cons b r =>
    rw [List.take_succ_cons, continued] at h
    split at h
    · rename_i hb
      refine ⟨b, r, b.toNat % 64, rfl, Nat.mod_lt _ (by decide), ?_, h⟩
      have h80 : (0x80 : UInt8).toNat = 0x80 := rfl
      have hBF : (0xBF : UInt8).toNat = 0xBF := rfl
      rw [Utf8.tail?, if_pos]
      rw [UInt8.le_iff_toNat_le, UInt8.le_iff_toNat_le]
      omega
    · cases h

theorem of_frontWide {width lead low available n w : Nat} {r : Text}
    (h : frontWide width lead low available r = .char n w) :
    w = width ∧ width ≤ available ∧ continued lead (r.take (width - 1)) = .ok n ∧ low ≤ n ∧
      ¬ (0xD800 ≤ n ∧ n ≤ 0xDFFF) ∧ n ≤ 0x10FFFF := by
  unfold frontWide at h
  split at h
  · cases h
  · split at h
    · cases h
    · rename_i hcont
      split at h
      · cases h
      · split at h
        · cases h
        · cases h
          exact ⟨rfl, by omega, hcont, by omega, by omega, by omega⟩

/-- A character at the front in UTF-8 is the first one of the bytes. -/
theorem first?_of_frontUtf8 {available n width : Nat} {t : Text} (hlen : available ≤ t.length)
    (hpos : 0 < available) (h : frontUtf8 available t = .char n width) :
    width ≤ available ∧ Utf8.first? t = some (Char.ofNat n, t.drop width) := by
  have h80 : (0x80 : UInt8).toNat = 0x80 := rfl
  have hC0 : (0xC0 : UInt8).toNat = 0xC0 := rfl
  have hE0 : (0xE0 : UInt8).toNat = 0xE0 := rfl
  have hF0 : (0xF0 : UInt8).toNat = 0xF0 := rfl
  have hF8 : (0xF8 : UInt8).toNat = 0xF8 := rfl
  cases t with
  | nil => cases h
  | cons a r =>
    have ha := a.toNat_lt
    rw [List.length_cons] at hlen
    simp only [frontUtf8, Utf8.first?, UInt8.lt_iff_toNat_lt, UInt8.le_iff_toNat_le, h80, hC0, hE0, hF0,
      hF8] at h ⊢
    -- one case for each width of the encoding
    split at h
    · rename_i h1
      cases h
      refine ⟨hpos, ?_⟩
      rw [if_pos h1]
      rfl
    · split at h
      · obtain ⟨rfl, hwidth, hcont, hlow, hs, -⟩ := of_frontWide h
        obtain ⟨b, r, i, rfl, hi, hb, hcont⟩ := exists_of_continued (k := 0) (by omega) hcont
        cases hcont
        refine ⟨hwidth, ?_⟩
        rw [if_neg (by omega), if_pos (by omega)]
        simp only [hb, Option.bind_eq_bind, Option.bind_some, Utf8.scalar?]
        rw [if_pos ⟨hlow, by omega, hs⟩]
        rfl
      · split at h
        · obtain ⟨rfl, hwidth, hcont, hlow, hs, -⟩ := of_frontWide h
          obtain ⟨b, r, i, rfl, hi, hb, hcont⟩ := exists_of_continued (k := 1) (by omega) hcont
          rw [List.length_cons] at hlen
          obtain ⟨c, r, j, rfl, hj, hc, hcont⟩ := exists_of_continued (k := 0) (by omega) hcont
          cases hcont
          refine ⟨hwidth, ?_⟩
          rw [if_neg (by omega), if_neg (by omega), if_pos (by omega)]
          simp only [hb, hc, Option.bind_eq_bind, Option.bind_some, Utf8.scalar?]
          rw [if_pos ⟨hlow, by omega, hs⟩]
          rfl
        · split at h
          · obtain ⟨rfl, hwidth, hcont, hlow, hs, hhigh⟩ := of_frontWide h
            obtain ⟨b, r, i, rfl, hi, hb, hcont⟩ := exists_of_continued (k := 2) (by omega) hcont
            rw [List.length_cons] at hlen
            obtain ⟨c, r, j, rfl, hj, hc, hcont⟩ := exists_of_continued (k := 1) (by omega) hcont
            rw [List.length_cons] at hlen
            obtain ⟨d, r, k, rfl, hk, hd, hcont⟩ := exists_of_continued (k := 0) (by omega) hcont
            cases hcont
            refine ⟨hwidth, ?_⟩
            rw [if_neg (by omega), if_neg (by omega), if_neg (by omega), if_pos (by omega)]
            simp only [hb, hc, hd, Option.bind_eq_bind, Option.bind_some, Utf8.scalar?]
            rw [if_pos ⟨hlow, hhigh, hs⟩]
            rfl
          · cases h

theorem unitBytes_unit (big : Bool) (a b : UInt8) : unitBytes big (unit big a b) = [a, b] := by
  have ha := a.toNat_lt
  have hb := b.toNat_lt
  unfold unitBytes unit
  cases big with
  | true =>
    rw [if_pos rfl, if_pos rfl, show (a.toNat * 256 + b.toNat) / 256 = a.toNat by omega,
      show (a.toNat * 256 + b.toNat) % 256 = b.toNat by omega, UInt8.ofNat_toNat, UInt8.ofNat_toNat]
  | false =>
    rw [if_neg Bool.false_ne_true, if_neg Bool.false_ne_true,
      show (b.toNat * 256 + a.toNat) / 256 = b.toNat by omega,
      show (b.toNat * 256 + a.toNat) % 256 = a.toNat by omega, UInt8.ofNat_toNat, UInt8.ofNat_toNat]

theorem unit_lt (big : Bool) (a b : UInt8) : unit big a b < 0x10000 := by
  have ha := a.toNat_lt
  have hb := b.toNat_lt
  unfold unit
  split <;> omega

theorem exists_two {t : Text} (h : 2 ≤ t.length) : ∃ a b r, t = a :: b :: r := by
  match t, h with
  | a :: b :: r, _ => exact ⟨a, b, r, rfl⟩

/-- A character at the front in UTF-16 is one unit, or a pair of surrogates. -/
theorem eq_append_of_frontUtf16 {big : Bool} {available n width : Nat} {t : Text}
    (hlen : available ≤ t.length) (h : frontUtf16 big available t = .char n width) (hn : isAllowed n) :
    width ≤ available ∧ t = (units (Char.ofNat n)).flatMap (unitBytes big) ++ t.drop width := by
  have htoNat := isAllowed_toNat hn
  unfold frontUtf16 at h
  split at h
  · cases h
  · rename_i h2
    obtain ⟨a, b, r, rfl⟩ := exists_two (t := t) (by omega)
    have hunit := unit_lt big a b
    simp only [List.getD_cons_zero, List.getD_cons_succ] at h
    split at h
    · cases h
    · split at h
      · split at h
        · cases h
        · rename_i hhigh h4
          rw [List.length_cons, List.length_cons] at hlen
          obtain ⟨c, d, r, rfl⟩ := exists_two (t := r) (by omega)
          simp only [List.getD_cons_zero, List.getD_cons_succ] at h
          split at h
          · rename_i hlow
            cases h
            refine ⟨by omega, ?_⟩
            rw [units, htoNat, if_neg (by omega)]
            have hfirst : 0xD800 + (0x10000 + unit big a b % 0x400 * 0x400 + unit big c d % 0x400 -
                0x10000) / 0x400 = unit big a b := by omega
            have hsecond : 0xDC00 + (0x10000 + unit big a b % 0x400 * 0x400 + unit big c d % 0x400) %
                0x400 = unit big c d := by omega
            rw [hfirst, hsecond, List.flatMap_cons, List.flatMap_singleton, unitBytes_unit,
              unitBytes_unit]
            rfl
          · cases h
      · cases h
        refine ⟨by omega, ?_⟩
        rw [units, htoNat, if_pos hunit, List.flatMap_singleton, unitBytes_unit]
        rfl

/-- A character at the front is encoded there. -/
theorem eq_append_of_front {e : Encoding} {available n width : Nat} {t : Text}
    (hlen : available ≤ t.length) (hpos : 0 < available) (h : front e available t = .char n width)
    (hn : isAllowed n) : width ≤ available ∧ t = e.char (Char.ofNat n) ++ t.drop width := by
  cases e with
  | utf8 =>
    obtain ⟨hwidth, hfirst⟩ := first?_of_frontUtf8 hlen hpos h
    exact ⟨hwidth, Utf8.eq_append_of_first? hfirst⟩
  | utf16Little => exact eq_append_of_frontUtf16 hlen h hn
  | utf16Big => exact eq_append_of_frontUtf16 hlen h hn

theorem frontWide_cut {width lead low available : Nat} {r : Text} {f : ReadFault}
    (h : frontWide width lead low available r = .cut f) : available < width := by
  unfold frontWide at h
  split at h
  · assumption
  · split at h
    · cases h
    · split at h
      · cases h
      · split at h <;> cases h

/-- Less than four bytes of a character are cut off. -/
theorem front_cut {e : Encoding} {available : Nat} {t : Text} {f : ReadFault}
    (hlen : available ≤ t.length) (h : front e available t = .cut f) : available < 4 := by
  have hutf16 : ∀ big, frontUtf16 big available t = .cut f → available < 4 := by
    intro big hcut
    unfold frontUtf16 at hcut
    split at hcut
    · omega
    · dsimp only at hcut
      split at hcut
      · cases hcut
      · split at hcut
        · split at hcut
          · assumption
          · split at hcut <;> cases hcut
        · cases hcut
  cases e with
  | utf16Little => exact hutf16 false h
  | utf16Big => exact hutf16 true h
  -- the first byte says how many bytes the character has, at most four
  | utf8 =>
    cases t with
    | nil =>
      rw [List.length_nil] at hlen
      omega
    | cons a r =>
      simp only [front, frontUtf8] at h
      split at h
      · cases h
      · split at h
        · exact (frontWide_cut h).trans (by decide)
        · split at h
          · exact (frontWide_cut h).trans (by decide)
          · split at h
            · exact frontWide_cut h
            · cases h

theorem Encoding.char_ne_nil (e : Encoding) (c : Char) : e.char c ≠ [] := by
  have hunits : ∀ big, (units c).flatMap (unitBytes big) ≠ [] := by
    intro big
    cases big <;> simp only [units] <;> split <;> simp [unitBytes]
  cases e with
  | utf8 => exact Utf8.utf8EncodeChar_ne_nil c
  | utf16Little => exact hunits false
  | utf16Big => exact hunits true

/-! ## Blocks -/

/-- A block gives characters that a source may hold. Unless it is damaged the bytes are those of the
characters and what is left; of that less than a character is carried over, and the whole block if
there is no character in it. -/
theorem block_eq (e : Encoding) (fuel : Nat) : ∀ (available : Nat) (t : Text) (acc : List Char),
    available ≤ t.length → ∃ new, (block e fuel available t acc).1 = new.reverse ++ acc ∧
      (∀ c ∈ new, isAllowed c.toNat) ∧
      ∀ t' carried f, (block e fuel available t acc).2 = .rest t' carried f →
        t = e.encode new ++ t' ∧ carried ≤ t'.length ∧ carried < 4 ∧
          (new = [] → available < fuel → carried = available) := by
  induction fuel with
  | zero =>
    intro available t acc hlen
    refine ⟨[], rfl, by simp, fun t' carried f h => ?_⟩
    cases h
    exact ⟨rfl, Nat.zero_le _, by decide, fun _ h => absurd h (Nat.not_lt_zero _)⟩
  | succ fuel ih =>
    intro available t acc hlen
    rw [block]
    split
    · rename_i hzero
      refine ⟨[], rfl, by simp, fun t' carried f h => ?_⟩
      cases h
      exact ⟨rfl, Nat.zero_le _, by decide, fun _ _ => hzero.symm⟩
    · rename_i hne
      -- at the front a character is cut off by the end of the block, damaged or whole
      split
      · rename_i f hfront
        refine ⟨[], rfl, by simp, fun t' carried f h => ?_⟩
        cases h
        exact ⟨rfl, hlen, front_cut hlen hfront, fun _ _ => rfl⟩
      · exact ⟨[], rfl, by simp, fun t' carried f h => by cases h⟩
      · rename_i n width hfront
        split
        · rename_i hn
          obtain ⟨hwidth, heq⟩ := eq_append_of_front hlen (Nat.pos_of_ne_zero hne) hfront hn
          obtain ⟨new, hchars, hallowed, hrest⟩ := ih (available - width) (t.drop width)
            (Char.ofNat n :: acc) (by rw [List.length_drop]; omega)
          refine ⟨Char.ofNat n :: new, by rw [hchars]; simp, ?_, fun t' carried f h => ?_⟩
          · intro c hc
            rcases List.mem_cons.1 hc with rfl | hc
            · rwa [isAllowed_toNat hn]
            · exact hallowed c hc
          · obtain ⟨htext, hle, hless, -⟩ := hrest t' carried f h
            refine ⟨?_, hle, hless, fun hnil => absurd hnil (List.cons_ne_nil _ _)⟩
            calc t = e.char (Char.ofNat n) ++ t.drop width := heq
              _ = e.char (Char.ofNat n) ++ (e.encode new ++ t') := by rw [← htext]
              _ = e.encode (Char.ofNat n :: new) ++ t' := (List.append_assoc ..).symm
        · exact ⟨[], rfl, by simp, fun t' carried f h => by cases h⟩

/-- Block after block, the characters are ones that a source may hold, and if no block is damaged
the bytes are theirs. -/
theorem decode_eq (e : Encoding) (fuel : Nat) :
    ∀ (available carried : Nat) (f : ReadFault) (t : Text), available ≤ t.length →
      (available = t.length ∨ 4 ≤ available) → carried ≤ available → t.length < fuel →
      (∀ c ∈ (decode e fuel available carried f t).chars, isAllowed c.toNat) ∧
        ((decode e fuel available carried f t).damage = none →
          t = e.encode (decode e fuel available carried f t).chars) := by
  induction fuel with
  | zero => exact fun _ _ _ _ _ _ _ h => absurd h (Nat.not_lt_zero _)
  | succ fuel ih =>
    intro available carried f t hlen hall hcarried hfuel
    rw [decode]
    split
    · rename_i hend
      -- nothing is left but what is carried over, which is damage
      refine ⟨List.forall_mem_nil _, fun hdamage => ?_⟩
      by_cases hzero : carried = 0
      · have hnil : t.length = 0 := by omega
        exact List.length_eq_zero_iff.1 hnil
      · dsimp only at hdamage
        rw [if_neg hzero] at hdamage
        cases hdamage
    · rename_i hmore
      obtain ⟨new, hchars, hallowed, hrest⟩ := block_eq e (available + 1) available t [] hlen
      generalize block e (available + 1) available t [] = p at hchars hrest
      obtain ⟨chars, ending⟩ := p
      rw [List.append_nil] at hchars
      dsimp only at hchars
      subst hchars
      cases ending with
      | fault f' => exact ⟨List.forall_mem_nil _, fun hdamage => by cases hdamage⟩
      | rest t' carried' f' =>
        obtain ⟨htext, hle, hless, hwhole⟩ := hrest t' carried' f' rfl
        have htake : (t'.take blockSize).length = min 512 t'.length := List.length_take
        dsimp only [chars]
        rw [List.reverse_reverse, List.flatten_cons, e.encode_append]
        by_cases hnew : new = []
        · -- no character ends in the block, so that the source ends in the middle of one
          subst hnew
          have hcut := hwhole rfl (Nat.lt_succ_self _)
          obtain rfl : t = t' := htext
          obtain ⟨less, rfl⟩ : ∃ less, fuel = less + 1 := ⟨fuel - 1, by omega⟩
          rw [decode, if_pos (by omega)]
          refine ⟨List.forall_mem_nil _, fun hdamage => ?_⟩
          dsimp only at hdamage
          rw [if_neg (by omega)] at hdamage
          cases hdamage
        · have hpos : 0 < (e.encode new).length := by
            obtain ⟨c, r, rfl⟩ := List.exists_cons_of_ne_nil hnew
            have hc := List.length_pos_iff.2 (e.char_ne_nil c)
            rw [Encoding.encode, List.flatMap_cons, List.length_append]
            omega
          have hlength := congrArg List.length htext
          rw [List.length_append] at hlength
          obtain ⟨hallowed', heq⟩ := ih (t'.take blockSize).length carried' f' t' (by omega) (by omega)
            (by omega) (by omega)
          refine ⟨?_, fun hdamage => ?_⟩
          · intro c hc
            rcases List.mem_append.1 hc with hc | hc
            · exact hallowed c hc
            · exact hallowed' c hc
          · rw [htext]
            exact congrArg _ (heq hdamage)

/-! ## Sources -/

theorem announced_skipped (t : Text) : (announced t).2.2 ≤ 3 ∧ (announced t).2.1.length ≤ t.length := by
  unfold announced
  split <;> simp <;> omega

/-- The bytes of a source that is not damaged are, after the announcement, those of its
characters. -/
theorem encode_chars_ofBytes (t : Text) :
    (∀ c ∈ (ofBytes t).chars, isAllowed c.toNat) ∧
      ((ofBytes t).damage = none → (announced t).2.1 = (announced t).1.encode (ofBytes t).chars) := by
  obtain ⟨hskipped, hbody⟩ := announced_skipped t
  have hdecode := decode_eq (announced t).1 (t.length + 2)
    (min (announced t).2.1.length (blockSize - (announced t).2.2)) 0 .incompleteSequence (announced t).2.1
    (Nat.min_le_left _ _) (by rw [blockSize]; omega) (Nat.zero_le _) (by omega)
  unfold ofBytes
  dsimp only
  split
  · unfold joined
    split
    · exact hdecode
    · exact ⟨List.forall_mem_nil _, fun hdamage => by cases hdamage⟩
  · exact hdecode

theorem endChar_not_mem_chars_ofBytes (t : Text) : endChar ∉ (ofBytes t).chars := by
  intro h
  exact absurd ((encode_chars_ofBytes t).1 _ h) (by decide)

end TreeLang.Yaml.Source
