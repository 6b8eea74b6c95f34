import TreeLang.Proofs.Text.Utf8
import TreeLang.Yaml.Cursor

/-!
# The characters of encoded texts

The bytes that encode characters are read as these characters, wherever the blocks cut them, as long
as a source may hold every one of them and no byte order mark comes first
(`Source.ofBytes_encode`).
-/

set_option autoImplicit false

namespace TreeLang.Yaml.Source

open Utf8 (encode toNat_bounds toNat_ofNat)

/-! ## One character -/

theorem continued_cons {n m : Nat} (h : m < 64) (r : List UInt8) :
    continued n (UInt8.ofNat (m + 0x80) :: r) = continued (n * 64 + m) r := by
  have hm : (UInt8.ofNat (m + 0x80)).toNat = m + 0x80 := toNat_ofNat (by omega)
  simp only [continued, hm]
  rw [if_pos (by omega)]
  congr 1
  omega

theorem frontWide_eq {width lead low available n : Nat} {r : Text} {c : Char}
    (hcont : continued lead (r.take (width - 1)) = .ok n) (hn : n = c.toNat) (hlow : low ≤ n) :
    frontWide width lead low available r =
      if width ≤ available then .char n width else .cut .incompleteSequence := by
  have hc := toNat_bounds c
  unfold frontWide
  by_cases h : width ≤ available
  · rw [if_neg (by omega), if_pos h, hcont]
    simp only
    rw [if_neg (by omega), if_neg (by omega)]
  · rw [if_pos (by omega), if_neg h]

/-- The lead byte of an encoding of two, three or four bytes. -/
theorem frontUtf8_lead (available : Nat) (r : Text) :
    (∀ m < 0x20, frontUtf8 available (UInt8.ofNat (m + 0xC0) :: r) =
      frontWide 2 m 0x80 available r) ∧
    (∀ m < 0x10, frontUtf8 available (UInt8.ofNat (m + 0xE0) :: r) =
      frontWide 3 m 0x800 available r) ∧
    (∀ m < 0x08, frontUtf8 available (UInt8.ofNat (m + 0xF0) :: r) =
      frontWide 4 m 0x10000 available r) := by
  have h80 : (0x80 : UInt8).toNat = 0x80 := rfl
  have hC0 : (0xC0 : UInt8).toNat = 0xC0 := rfl
  have hE0 : (0xE0 : UInt8).toNat = 0xE0 := rfl
  have hF0 : (0xF0 : UInt8).toNat = 0xF0 := rfl
  have hF8 : (0xF8 : UInt8).toNat = 0xF8 := rfl
  simp only [frontUtf8, UInt8.lt_iff_toNat_lt, UInt8.le_iff_toNat_le, h80, hC0, hE0, hF0, hF8]
  refine ⟨fun m hm => ?_, fun m hm => ?_, fun m hm => ?_⟩
  · rw [toNat_ofNat (by omega), if_neg (by omega), if_pos (by omega), Nat.add_sub_cancel]
  · rw [toNat_ofNat (by omega), if_neg (by omega), if_neg (by omega), if_pos (by omega),
      Nat.add_sub_cancel]
  · rw [toNat_ofNat (by omega), if_neg (by omega), if_neg (by omega), if_neg (by omega),
      if_pos (by omega), Nat.add_sub_cancel]

/-- The front of the encoding of a character is the character, or is cut off by the block. -/
theorem frontUtf8_encode (c : Char) (rest : Text) {available : Nat} (hpos : 0 < available) :
    frontUtf8 available (String.utf8EncodeChar c ++ rest) =
      if c.utf8Size ≤ available then .char c.toNat c.utf8Size else .cut .incompleteSequence := by
  have hc := toNat_bounds c
  have hval : c.val.toNat = c.toNat := rfl
  rw [← String.length_utf8EncodeChar]
  unfold String.utf8EncodeChar
  simp only [hval]
  split
  · rename_i h1
    have h80 : (0x80 : UInt8).toNat = 0x80 := rfl
    simp only [List.cons_append, List.nil_append, frontUtf8]
    rw [if_pos ((Utf8.ofNat_lt (by omega) _).2 (by omega)), toNat_ofNat (by omega),
      List.length_singleton, if_pos (show 1 ≤ available from hpos)]
  · split
    · rename_i h1 h2
      simp only [List.cons_append, List.nil_append]
      rw [(frontUtf8_lead _ _).1 _ (by omega)]
      have hcont := continued_cons (n := c.toNat / 64 % 32) (m := c.toNat % 64) (by omega) []
      rw [frontWide_eq hcont (c := c) (by omega) (by omega)]
      have hn : c.toNat / 64 % 32 * 64 + c.toNat % 64 = c.toNat := by omega
      rw [hn]
      rfl
    · split
      · rename_i h1 h2 h3
        simp only [List.cons_append, List.nil_append]
        rw [(frontUtf8_lead _ _).2.1 _ (by omega)]
        have hcont := (continued_cons (n := c.toNat / 4096 % 16) (m := c.toNat / 64 % 64) (by omega)
          [UInt8.ofNat (c.toNat % 64 + 0x80)]).trans (continued_cons (by omega) [])
        rw [frontWide_eq hcont (c := c) (by omega) (by omega)]
        have hn : (c.toNat / 4096 % 16 * 64 + c.toNat / 64 % 64) * 64 + c.toNat % 64 = c.toNat := by
          omega
        rw [hn]
        rfl
      · rename_i h1 h2 h3
        simp only [List.cons_append, List.nil_append]
        rw [(frontUtf8_lead _ _).2.2 _ (by omega)]
        have hcont := (continued_cons (n := c.toNat / 262144 % 8) (m := c.toNat / 4096 % 64)
          (by omega) [UInt8.ofNat (c.toNat / 64 % 64 + 0x80), UInt8.ofNat (c.toNat % 64 + 0x80)]).trans
          ((continued_cons (by omega) _).trans (continued_cons (by omega) []))
        rw [frontWide_eq hcont (c := c) (by omega) (by omega)]
        have hn : ((c.toNat / 262144 % 8 * 64 + c.toNat / 4096 % 64) * 64 + c.toNat / 64 % 64) * 64 +
            c.toNat % 64 = c.toNat := by
          omega
        rw [hn]
        rfl

/-! ## One block -/

/-- Whether so many bytes are less than the first character, and none when there is none. -/
def IsCut (carried : Nat) : List Char → Prop
  | [] => carried = 0
  | c :: _ => carried < c.utf8Size

theorem isCut_zero (cs : List Char) : IsCut 0 cs := by
  cases cs with
  | nil => rfl
  | cons c _ => exact c.utf8Size_pos

/-- A block of encoded characters gives those that end in it, and leaves the others. What it carries
over is less than the next character. -/
theorem block_encode (cs : List Char) (hcs : ∀ c ∈ cs, isAllowed c.toNat) :
    ∀ (fuel available : Nat) (acc : List Char), available < fuel → available ≤ (encode cs).length →
      ∃ pre suf carried, cs = pre ++ suf ∧
        block .utf8 fuel available (encode cs) acc =
          (pre.reverse ++ acc, .rest (encode suf) carried .incompleteSequence) ∧
        (encode pre).length + carried = available ∧
        IsCut carried suf := by
  induction cs with
  | nil =>
    intro fuel available acc hfuel hlen
    obtain rfl : available = 0 := Nat.le_zero.1 hlen
    refine ⟨[], [], 0, rfl, ?_, rfl, rfl⟩
    cases fuel with
    | zero => cases hfuel
    | succ fuel => rfl
  | cons c cs ih =>
    intro fuel available acc hfuel hlen
    cases fuel with
    | zero => cases hfuel
    | succ fuel =>
      by_cases hzero : available = 0
      · subst hzero
        exact ⟨[], c :: cs, 0, rfl, rfl, rfl, isCut_zero _⟩
      · have hfront := frontUtf8_encode c (encode cs) (Nat.pos_of_ne_zero hzero)
        have hlength := String.length_utf8EncodeChar c
        have hsize := c.utf8Size_pos
        rw [Utf8.encode_cons, List.length_append, hlength] at hlen
        by_cases hfits : c.utf8Size ≤ available
        · rw [if_pos hfits] at hfront
          obtain ⟨pre, suf, carried, rfl, hblock, hcount, hcut⟩ :=
            ih (fun d hd => hcs d (List.mem_cons_of_mem _ hd)) fuel (available - c.utf8Size) (c :: acc)
              (by omega) (by omega)
          refine ⟨c :: pre, suf, carried, rfl, ?_, ?_, hcut⟩
          · simp only [block, if_neg hzero, front, Utf8.encode_cons, hfront,
              if_pos (hcs c List.mem_cons_self), Char.ofNat_toNat]
            rw [← hlength, List.drop_left, hlength, hblock, List.reverse_cons, List.append_assoc]
            rfl
          · rw [Utf8.encode_cons, List.length_append, hlength]
            omega
        · -- the block cuts the character off
          rw [if_neg hfits] at hfront
          refine ⟨[], c :: cs, available, rfl, ?_, by simp, Nat.lt_of_not_le hfits⟩
          simp only [block, if_neg hzero, front, Utf8.encode_cons, hfront]
          rfl

/-! ## All blocks -/

/-- Block after block gives all the characters. -/
theorem decode_encode : ∀ (fuel : Nat) (cs : List Char) (available carried : Nat),
    (∀ c ∈ cs, isAllowed c.toNat) → (encode cs).length < fuel →
    available ≤ (encode cs).length → (available = (encode cs).length ∨ 4 ≤ available) →
    IsCut carried cs →
    ∃ blocks, decode .utf8 fuel available carried .incompleteSequence (encode cs) = ⟨blocks, none⟩ ∧
      blocks.flatten = cs := by
  intro fuel
  induction fuel with
  | zero =>
    intro cs available carried _ hfuel
    cases hfuel
  | succ fuel ih =>
    intro cs available carried hcs hfuel hle havailable hcarried
    cases cs with
    | nil =>
      obtain rfl : available = 0 := Nat.le_zero.1 hle
      obtain rfl : carried = 0 := hcarried
      exact ⟨[], rfl, rfl⟩
    | cons c r =>
      have hlength := String.length_utf8EncodeChar c
      have hpos := c.utf8Size_pos
      have hfour := c.utf8Size_le_four
      have hlen : (encode (c :: r)).length = c.utf8Size + (encode r).length := by
        rw [Utf8.encode_cons, List.length_append, hlength]
      have hlt : carried < c.utf8Size := hcarried
      obtain ⟨pre, suf, carried', hsplit, hblock, hcount, hcut⟩ :=
        block_encode (c :: r) hcs (available + 1) available [] (Nat.lt_succ_self _) hle
      have hpre : pre ≠ [] := by
        rintro rfl
        rw [List.nil_append] at hsplit
        rw [Utf8.encode_nil, List.length_nil, Nat.zero_add] at hcount
        have hcut' : IsCut carried' (c :: r) := hsplit ▸ hcut
        have hless : carried' < c.utf8Size := hcut'
        omega
      have hprelen : pre.length ≤ (encode pre).length := Utf8.length_le_encode pre
      have hprepos := List.length_pos_iff.2 hpre
      have hsum : (encode (c :: r)).length = (encode pre).length + (encode suf).length := by
        rw [hsplit, Utf8.encode_append, List.length_append]
      have htake : ((encode suf).take blockSize).length = min blockSize (encode suf).length :=
        List.length_take
      obtain ⟨blocks, hdecode, hflat⟩ := ih suf ((encode suf).take blockSize).length carried'
        (fun d hd => hcs d (hsplit ▸ List.mem_append_right pre hd)) (by omega)
        (by rw [htake]; exact Nat.min_le_right _ _) (by rw [htake, blockSize]; omega) hcut
      refine ⟨pre :: blocks, ?_, ?_⟩
      · rw [decode, if_neg (by omega), hblock]
        simp only [hdecode, List.append_nil, List.reverse_reverse]
      · rw [List.flatten_cons, hflat, hsplit]

theorem size_eq (blocks : List (List Char)) : size ⟨blocks, none⟩ = blocks.flatten.length := by
  have h : ∀ n, blocks.foldl (fun n b => n + b.length) n = n + blocks.flatten.length := by
    induction blocks with
    | nil =>
      intro n
      rfl
    | cons b bs ih =>
      intro n
      rw [List.foldl_cons, ih, List.flatten_cons, List.length_append, Nat.add_assoc]
  exact (h 0).trans (Nat.zero_add _)

/-- Encoded characters announce no other encoding, unless a byte order mark comes first. -/
theorem announced_encode {cs : List Char} (hmark : cs.head? ≠ some orderMark) :
    announced (encode cs) = (.utf8, encode cs, 0) := by
  cases cs with
  | nil => rfl
  | cons c r =>
    have hfirst := Utf8.first?_utf8EncodeChar c (encode r)
    rw [Utf8.encode_cons]
    generalize String.utf8EncodeChar c ++ encode r = t at hfirst
    unfold announced
    split
    · cases hfirst
    · cases hfirst
    · rename_i rest
      have henc : String.utf8EncodeChar orderMark = [0xEF, 0xBB, 0xBF] := by decide
      have hbom := Utf8.first?_utf8EncodeChar orderMark rest
      rw [henc, List.cons_append, List.cons_append, List.cons_append, List.nil_append, hfirst] at hbom
      obtain ⟨rfl, -⟩ := Prod.mk.inj (Option.some.inj hbom)
      exact absurd rfl hmark
    · rfl

/-- A source of encoded characters holds them. -/
theorem ofBytes_encode {cs : List Char} (hcs : ∀ c ∈ cs, isAllowed c.toNat)
    (hmark : cs.head? ≠ some orderMark) :
    ∃ blocks, ofBytes (encode cs) = ⟨blocks, none⟩ ∧ blocks.flatten = cs := by
  have hmin := Nat.min_le_left (encode cs).length blockSize
  obtain ⟨blocks, hdecode, hflat⟩ := decode_encode ((encode cs).length + 2) cs
    (min (encode cs).length blockSize) 0 hcs (by omega) hmin (by rw [blockSize]; omega) (isCut_zero cs)
  refine ⟨blocks, ?_, hflat⟩
  unfold ofBytes
  rw [announced_encode hmark]
  simp only [Nat.sub_zero, hdecode]
  split <;> rfl

end TreeLang.Yaml.Source
