import TreeLang.Proofs.Library.Recursion
import TreeLang.Proofs.Tree.Uses

/-!
# Arithmetic wraps around once

A tree of literals, variables, sums and products spells a polynomial in its variables with integer
coefficients (`Tree.Spells`). Evaluation wraps around at every sum and product, at any depth. But
reduction to 64 bits respects sums and products, so it is enough to think of it as done once, at the
end: the value is the number of 64 bits with a sign that is congruent to the value of the polynomial
over the integers (`evalAll_spells`). It depends on the polynomial alone, and not on how the tree
spells it.
-/

set_option autoImplicit false

namespace TreeLang

open MvPolynomial (C X eval)

/-! ## Polynomials -/

namespace Tree

/-- A tree of literals, variables, sums and products, and the polynomial that it spells. -/
inductive Spells : Tree → MvPolynomial Text ℤ → Prop
  | literal (v : Int64) : Spells (.literal v) (C v.toInt)
  | var (x : Text) : Spells (.var x) (X x)
  | add {s t : Tree} {p q : MvPolynomial Text ℤ} : s.Spells p → t.Spells q →
      Spells (.binary .add s t) (p + q)
  | mul {s t : Tree} {p q : MvPolynomial Text ℤ} : s.Spells p → t.Spells q →
      Spells (.binary .mul s t) (p * q)

/-- How deep operations are inside each other, with one more for what they are applied to. -/
def height : Tree → Nat
  | .binary _ a b => max a.height b.height + 1
  | _ => 1

/-- All names in the tree are variables of the scope. -/
def Bound (c : Chain) (t : Tree) : Prop := t.Obeys fun _ x => (c.lookup? x).isSome

instance (c : Chain) (t : Tree) : Decidable (t.Bound c) :=
  inferInstanceAs (Decidable (∀ n ∈ t.uses, (c.lookup? n.2).isSome))

/-- The variables of the first operand are bound if those of the operation are. -/
theorem Bound.left {c : Chain} {op : Op} {s t : Tree} (h : (Tree.binary op s t).Bound c) :
    s.Bound c :=
  fun n hn => h n (List.mem_append_left _ hn)

/-- The variables of the second operand are bound if those of the operation are. -/
theorem Bound.right {c : Chain} {op : Op} {s t : Tree} (h : (Tree.binary op s t).Bound c) :
    t.Bound c :=
  fun n hn => h n (List.mem_append_right _ hn)

end Tree

/-- The values of the variables of a scope as integers. -/
def Chain.integers (c : Chain) (x : Text) : ℤ := ((c.lookup? x).getD 0).toInt

/-- The integer of a variable is the value that it is bound to. -/
theorem Chain.integers_of_lookup? {c : Chain} {x : Text} {v : Int64} (h : c.lookup? x = some v) :
    c.integers x = v.toInt := by
  simp [integers, h]

/-! ## Reduction to 64 bits -/

/-- One number of 64 bits with a sign is congruent to an integer: the one that it is reduced to. -/
theorem toInt_modEq_iff (w : Int64) (z : ℤ) : w.toInt ≡ z [ZMOD 2 ^ 64] ↔ w = .ofInt z := by
  constructor
  · intro h
    have hz : z.bmod (2 ^ 64) = w.toInt := by
      have hmod : z % (2 ^ 64 : Nat) = w.toInt % (2 ^ 64 : Nat) := h.symm
      calc z.bmod (2 ^ 64) = (z % (2 ^ 64 : Nat)).bmod (2 ^ 64) := (Int.emod_bmod z _).symm
        _ = (w.toInt % (2 ^ 64 : Nat)).bmod (2 ^ 64) := by rw [hmod]
        _ = w.toInt.bmod (2 ^ 64) := Int.emod_bmod w.toInt _
        _ = w.toInt := w.toInt_bmod
    exact ((Int64.ofInt_eq_iff_bmod_eq_toInt z w).2 hz).symm
  · rintro rfl
    rw [Int64.toInt_ofInt]
    exact Int.bmod_emod

namespace Eval.Yields

variable {o : Options} {a : Machine}

/-- A tree that spells a polynomial yields its value, reduced to 64 bits, and changes nothing. -/
theorem spelled (ho : o.limit = none) {t : Tree} {p : MvPolynomial Text ℤ} (ht : t.Spells p)
    (hbound : t.Bound a.chain) {fuel : Nat} (hfuel : t.height ≤ fuel) :
    Yields o fuel t a (.ofInt (eval a.chain.integers p)) a := by
  -- Along the tree: what is yielded inside is reduced already, and reduction respects the operations.
  induction ht generalizing fuel with
  | literal v =>
    rw [MvPolynomial.eval_C, Int64.ofInt_toInt]
    exact literal_of_pos ho hfuel v
  | var x =>
    obtain ⟨v, hx⟩ := Option.isSome_iff_exists.1 (hbound (.read, x) List.mem_cons_self)
    obtain ⟨less, rfl⟩ : ∃ less, fuel = less + 1 := ⟨fuel - 1, (Nat.sub_add_cancel hfuel).symm⟩
    rw [MvPolynomial.eval_X, Chain.integers_of_lookup? hx, Int64.ofInt_toInt]
    exact var ho hx
  | @add s t p q _ _ ihs iht =>
    rw [Tree.height] at hfuel
    obtain ⟨less, rfl⟩ : ∃ less, fuel = less + 1 := ⟨fuel - 1, by omega⟩
    have hs := ihs hbound.left (show s.height ≤ less by omega)
    have ht := iht hbound.right (show t.height ≤ less by omega)
    rw [map_add, Int64.ofInt_add]
    exact binary ho hs ht
  | @mul s t p q _ _ ihs iht =>
    rw [Tree.height] at hfuel
    obtain ⟨less, rfl⟩ : ∃ less, fuel = less + 1 := ⟨fuel - 1, by omega⟩
    have hs := ihs hbound.left (show s.height ≤ less by omega)
    have ht := iht hbound.right (show t.height ≤ less by omega)
    rw [map_mul, Int64.ofInt_mul]
    exact binary ho hs ht

end Eval.Yields

theorem Tree.height_pos (t : Tree) : 0 < t.height := by
  cases t <;> simp [height]

/-- With no limit, a tree that spells a polynomial returns its value reduced to 64 bits, in every
scope that binds its variables. -/
theorem returns_spelled {o : Options} (ho : o.limit = none) (m : Machine) {t : Tree}
    {p : MvPolynomial Text ℤ} (ht : t.Spells p) (hbound : t.Bound m.chain) :
    Returns o m t t.height (.ofInt (eval m.chain.integers p)) := by
  obtain ⟨need, hneed⟩ := Nat.exists_eq_add_one.2 t.height_pos
  rw [hneed]
  apply Ends.of_yields
  intro fuel hfuel
  exact .spelled (a := m.restarted) ho ht hbound (by omega)

/-- Arithmetic is that of the integers modulo two to the power of 64. With no limit, in every scope
that binds its variables, a tree of literals, variables, sums and products returns the one number of
64 bits with a sign that is congruent to the value of its polynomial over the integers. Every other
tree that spells the same polynomial, however its sums and products are grouped, ordered or
multiplied out, returns the same number. -/
theorem evalAll_spells (o : Options) (ho : o.limit = none) (m : Machine) {t : Tree}
    {p : MvPolynomial Text ℤ} (ht : t.Spells p) (hbound : t.Bound m.chain) :
    ∃ v : Int64, (∀ w : Int64, w.toInt ≡ eval m.chain.integers p [ZMOD 2 ^ 64] ↔ w = v) ∧
      Returns o m t t.height v ∧
      ∀ u : Tree, u.Spells p → u.Bound m.chain → Returns o m u u.height v := by
  refine ⟨.ofInt (eval m.chain.integers p), fun w => toInt_modEq_iff w _, ?_, fun u hu hbound => ?_⟩
  · exact returns_spelled ho m ht hbound
  · exact returns_spelled ho m hu hbound

/-- A frame with the least number, below a root with a great one. -/
def extremes : Machine where
  chain := [{ vars := [(utf8 "y", -9223372036854775808)] },
    { vars := [(utf8 "x", 6148914691236517205), (utf8 "y", 3)] }]

/-- A product of a sum is multiplied out, with its factors in another order. All three operations of
the second tree wrap around, and only the last one of the first tree does. -/
theorem evalAll_spells_extremes :
    let x : Tree := .var (utf8 "x")
    let y : Tree := .var (utf8 "y")
    let t : Tree := .binary .mul (.binary .add x y) (.literal 5)
    let u : Tree := .binary .add (.binary .mul (.literal 5) y) (.binary .mul x (.literal 5))
    t.Bound extremes.chain ∧ u.Bound extremes.chain ∧
      Returns {} extremes t 3 3074457345618258601 ∧ Returns {} extremes u 3 3074457345618258601 := by
  intro x y t u
  have hx : Tree.Spells x (X (utf8 "x")) := .var _
  have hy : Tree.Spells y (X (utf8 "y")) := .var _
  have ht : t.Spells ((X (utf8 "x") + X (utf8 "y")) * C 5) := .mul (.add hx hy) (.literal 5)
  have hu : u.Spells ((X (utf8 "x") + X (utf8 "y")) * C 5) := by
    have h : u.Spells (C 5 * X (utf8 "y") + X (utf8 "x") * C 5) :=
      .add (.mul (.literal 5) hy) (.mul hx (.literal 5))
    rwa [show C 5 * X (utf8 "y") + X (utf8 "x") * C 5 =
      (X (utf8 "x") + X (utf8 "y")) * (C 5 : MvPolynomial Text ℤ) by ring] at h
  have htb : t.Bound extremes.chain := by decide
  have hub : u.Bound extremes.chain := by decide
  obtain ⟨v, hv, hreturns, hothers⟩ := evalAll_spells {} rfl extremes ht htb
  have hxi : extremes.chain.integers (utf8 "x") = 6148914691236517205 := rfl
  have hyi : extremes.chain.integers (utf8 "y") = -9223372036854775808 := rfl
  obtain rfl : 3074457345618258601 = v := by
    apply (hv _).1
    simp only [map_mul, map_add, MvPolynomial.eval_X, MvPolynomial.eval_C, hxi, hyi]
    decide
  exact ⟨htb, hub, hreturns, hothers u hu hub⟩

end TreeLang
