import TreeLang.Library
import TreeLang.Proofs.Eval.Frames
import TreeLang.Proofs.Eval.Values

/-!
# The recursive functions of the library

The library defines Fibonacci numbers, factorials and powers by recursion, with sums and products
that wrap around. A call returns the number that the function is named for, reduced to 64 bits with
a sign, whatever variables the scope of the caller binds: the parameters of a function are bound in
a frame of its own below that scope, and the functions read nothing else (`Library.calls_return`).

The induction is on the argument. It goes down by one or two from a call to the calls inside it, and
fuel goes down by three: one for the call, one for the condition and one for the operation.
-/

set_option autoImplicit false

namespace TreeLang

/-- The function that a definition binds. -/
def Tree.function? : Tree → Option Function
  | .define f ps b => some ⟨f, ps, some b⟩
  | _ => Option.none

/-- Given so much fuel, the evaluation of the tree has the value and leaves the machine, but for the
calls that are recorded. -/
structure Ends (o : Options) (m : Machine) (t : Tree) (need : Nat) (v : Int64) (b : Machine) :
    Prop where
  all : ∀ fuel, need ≤ fuel → ∃ calls,
    Eval.all o fuel [some t] m.restarted = .ok v { b with calls := calls }
  evalAll : need ≤ o.fuel → ∃ calls, evalAll o [some t] m = .ok v { b with calls := calls }

/-- Given so much fuel, the evaluation of the tree returns the value. It changes no frame and prints
nothing; calls may be recorded. -/
abbrev Returns (o : Options) (m : Machine) (t : Tree) (need : Nat) (v : Int64) : Prop :=
  Ends o m t need v m.restarted

/-- What a call yields is how a run of it ends. -/
theorem Ends.of_yields {o : Options} {m b : Machine} {t : Tree} {need : Nat} {v : Int64}
    (h : ∀ fuel, need ≤ fuel → Eval.Yields o (fuel + 1) t m.restarted v b) :
    Ends o m t (need + 1) v b := by
  have hall : ∀ fuel, need + 1 ≤ fuel → ∃ calls,
      Eval.all o fuel [some t] m.restarted = .ok v { b with calls := calls } := by
    intro fuel hfuel
    obtain ⟨less, rfl⟩ := Nat.exists_eq_add_of_le' (Nat.le_of_add_left_le hfuel)
    rw [Eval.all_single]
    exact h less (Nat.le_of_succ_le_succ hfuel) m.calls
  exact ⟨hall, hall o.fuel⟩

namespace Library

open Eval (Yields called)

variable {o : Options} {a : Machine} {fuel : Nat}

/-! ## Numbers -/

/-- What a call of `fib` returns. -/
def fibValue (i : Int64) : Int64 := if i < 3 then 1 else .ofNat (Nat.fib i.toInt.toNat)

/-- What a call of `fact` returns. -/
def factValue (k : Int64) : Int64 := if k < 2 then 1 else .ofNat (Nat.factorial k.toInt.toNat)

/-- What a call of `pow` returns. -/
def powValue (b e : Int64) : Int64 := if e < 1 then 1 else .ofInt (b.toInt ^ e.toInt.toNat)

/-- Adding a number that is not positive wraps around only below zero. -/
theorem toInt_add_of_nonneg {i k : Int64} (hk : k.toInt ≤ 0) (h : 0 ≤ i.toInt + k.toInt) :
    (i + k).toInt = i.toInt + k.toInt := by
  have hi := i.toInt_lt
  rw [Int64.toInt_add]
  apply Int.bmod_eq_of_le <;> omega

theorem toInt_add_neg_one {i : Int64} (h : 1 ≤ i.toInt) : (i + -1).toInt = i.toInt - 1 := by
  have hone : (-1 : Int64).toInt = -1 := rfl
  exact toInt_add_of_nonneg (by omega) (by omega)

theorem toInt_add_neg_two {i : Int64} (h : 2 ≤ i.toInt) : (i + -2).toInt = i.toInt - 2 := by
  have htwo : (-2 : Int64).toInt = -2 := rfl
  exact toInt_add_of_nonneg (by omega) (by omega)

theorem toInt_le_of_not_lt {i k : Int64} (h : ¬ i < k) : k.toInt ≤ i.toInt :=
  Int.not_lt.1 fun hlt => h (Int64.lt_iff_toInt_lt.2 hlt)

theorem ofNat_toInt_toNat {i : Int64} (h : 0 ≤ i.toInt) : Int64.ofNat i.toInt.toNat = i := by
  rw [← Int64.ofInt_eq_ofNat, Int.toNat_of_nonneg h, Int64.ofInt_toInt]

/-- The first two Fibonacci numbers are one, as `fib` has it for all numbers below the third. -/
theorem fibValue_of_pos {i : Int64} (h : 1 ≤ i.toInt) :
    fibValue i = .ofNat (Nat.fib i.toInt.toNat) := by
  rw [fibValue]
  by_cases h3 : i < 3
  · have hlt : i.toInt < 3 := Int64.lt_iff_toInt_lt.1 h3
    rw [if_pos h3]
    rcases (by omega : i.toInt = 1 ∨ i.toInt = 2) with hi | hi
    · rw [hi]
      rfl
    · rw [hi]
      rfl
  · rw [if_neg h3]

/-- The two values in front of one add up to it. -/
theorem fibValue_add {i : Int64} (h : 3 ≤ i.toInt) :
    fibValue (i + -1) + fibValue (i + -2) = fibValue i := by
  have h1 := toInt_add_neg_one (i := i) (by omega)
  have h2 := toInt_add_neg_two (i := i) (by omega)
  obtain ⟨k, hk⟩ : ∃ k, i.toInt.toNat = k + 2 := ⟨i.toInt.toNat - 2, by omega⟩
  have hk1 : (i + -1).toInt.toNat = k + 1 := by omega
  have hk2 : (i + -2).toInt.toNat = k := by omega
  rw [fibValue_of_pos (by omega), fibValue_of_pos (by omega), fibValue_of_pos (by omega), hk, hk1,
    hk2, ← Int64.ofNat_add, Nat.fib_add_two, Nat.add_comm]

theorem factValue_of_nonneg {k : Int64} (h : 0 ≤ k.toInt) :
    factValue k = .ofNat (Nat.factorial k.toInt.toNat) := by
  rw [factValue]
  by_cases h2 : k < 2
  · have hlt : k.toInt < 2 := Int64.lt_iff_toInt_lt.1 h2
    rw [if_pos h2]
    rcases (by omega : k.toInt = 0 ∨ k.toInt = 1) with hk | hk
    · rw [hk]
      rfl
    · rw [hk]
      rfl
  · rw [if_neg h2]

/-- A factorial is the number times the factorial in front. -/
theorem mul_factValue {k : Int64} (h : 2 ≤ k.toInt) : k * factValue (k + -1) = factValue k := by
  have h1 := toInt_add_neg_one (i := k) (by omega)
  obtain ⟨j, hj⟩ : ∃ j, k.toInt.toNat = j + 1 := ⟨k.toInt.toNat - 1, by omega⟩
  have hj1 : (k + -1).toInt.toNat = j := by omega
  have hk : Int64.ofNat (j + 1) = k := hj ▸ ofNat_toInt_toNat (by omega)
  rw [factValue_of_nonneg (by omega), factValue_of_nonneg (by omega), hj, hj1, Nat.factorial_succ,
    Int64.ofNat_mul, hk]

theorem powValue_of_nonneg {b e : Int64} (h : 0 ≤ e.toInt) :
    powValue b e = .ofInt (b.toInt ^ e.toInt.toNat) := by
  rw [powValue]
  by_cases h1 : e < 1
  · have hlt : e.toInt < 1 := Int64.lt_iff_toInt_lt.1 h1
    rw [if_pos h1, show e.toInt = 0 by omega, Int.toNat_zero, pow_zero]
    rfl
  · rw [if_neg h1]

/-- A power is the base times the power in front. -/
theorem mul_powValue {b e : Int64} (h : 1 ≤ e.toInt) : b * powValue b (e + -1) = powValue b e := by
  have h1 := toInt_add_neg_one h
  obtain ⟨j, hj⟩ : ∃ j, e.toInt.toNat = j + 1 := ⟨e.toInt.toNat - 1, by omega⟩
  have hj1 : (e + -1).toInt.toNat = j := by omega
  rw [powValue_of_nonneg (by omega), powValue_of_nonneg (by omega), hj, hj1, pow_succ',
    Int64.ofInt_mul, Int64.ofInt_toInt]

/-! ## Calls -/

/-- What the recursive functions have in common: one for a parameter below some number, and
otherwise what an operation yields. -/
theorem yields_oneBelow (ho : o.limit = none) (hchecks : a.checks = none) {f : Text} {g : Function}
    (hg : a.chain.lookupFunc? f = some g) {args : List Tree} {vs : List Int64}
    (hargs : List.Forall₂ (fun t v => Yields o (fuel + 3) t a v a) args vs) {frame : Frame}
    (hframe : a.chain.child.declareAll? g.params vs = some frame) {x : Text} {k : Int64} {e : Tree}
    (hbody : g.body = some (.cond (.binary .lt (.var x) (.literal k)) (.literal 1) e)) {i : Int64}
    (hx : (called frame a).chain.lookup? x = some i) {w : Int64} (hbase : i < k → w = 1)
    (hrec : ¬ i < k → Yields o (fuel + 2) e (called frame a) w (called frame a)) :
    Yields o (fuel + 4) (.call f args) a w a := by
  apply Yields.callSame ho hchecks hg hargs hframe hbody
  apply Yields.condLess ho hx
  · intro hlt
    rw [hbase hlt]
    exact .literal ho 1
  · exact hrec

/-- A call of `fib` yields the Fibonacci number of its argument. This goes along the argument, for
all machines, since the calls inside run below the frame of this one. -/
theorem yields_fib (ho : o.limit = none) (hchecks : a.checks = none)
    (hf : a.chain.lookupFunc? (utf8 "fib") = fib.function?) {t : Tree} {i : Int64}
    (ht : Yields o fuel t a i a) (hfuel : 3 * i.toInt.toNat + 3 ≤ fuel) :
    Yields o (fuel + 1) (call "fib" [t]) a (fibValue i) a := by
  induction hk : i.toInt.toNat using Nat.strong_induction_on generalizing a t i fuel with
  | _ k ih =>
    obtain ⟨rest, rfl⟩ : ∃ rest, fuel = rest + 3 := ⟨fuel - 3, by omega⟩
    let frame : Frame := { vars := [(utf8 "i", i)], sink := a.chain.sink }
    have hframe : a.chain.child.declareAll? [utf8 "i"] [i] = some frame := rfl
    have hi : (called frame a).chain.lookup? (utf8 "i") = some i := rfl
    apply yields_oneBelow ho hchecks hf (.cons ht .nil) hframe rfl hi
    · exact fun hlt => if_pos hlt
    · intro hge
      have h3 : 3 ≤ i.toInt := toInt_le_of_not_lt hge
      have h1 := toInt_add_neg_one (i := i) (by omega)
      have h2 := toInt_add_neg_two (i := i) (by omega)
      obtain ⟨less, rfl⟩ : ∃ less, rest = less + 2 := ⟨rest - 2, by omega⟩
      rw [← fibValue_add h3]
      have harg1 : Yields o (less + 2) _ (called frame a) (i + -1) (called frame a) :=
        .plus ho hi (-1)
      have harg2 : Yields o (less + 2) _ (called frame a) (i + -2) (called frame a) :=
        .plus ho hi (-2)
      have hfuel1 : 3 * (i + -1).toInt.toNat + 3 ≤ less + 2 := by omega
      have hfuel2 : 3 * (i + -2).toInt.toNat + 3 ≤ less + 2 := by omega
      apply Yields.binary ho
      · exact ih _ (by omega) (a := called frame a) hchecks hf harg1 hfuel1 rfl
      · exact ih _ (by omega) (a := called frame a) hchecks hf harg2 hfuel2 rfl

/-- A call of `fact` yields the factorial of its argument, which is less by one in the call
inside. -/
theorem yields_fact (ho : o.limit = none) (hchecks : a.checks = none)
    (hf : a.chain.lookupFunc? (utf8 "fact") = fact.function?) {t : Tree} {k : Int64}
    (ht : Yields o fuel t a k a) (hfuel : 3 * k.toInt.toNat + 3 ≤ fuel) :
    Yields o (fuel + 1) (call "fact" [t]) a (factValue k) a := by
  induction hj : k.toInt.toNat using Nat.strong_induction_on generalizing a t k fuel with
  | _ j ih =>
    obtain ⟨rest, rfl⟩ : ∃ rest, fuel = rest + 3 := ⟨fuel - 3, by omega⟩
    let frame : Frame := { vars := [(utf8 "n", k)], sink := a.chain.sink }
    have hframe : a.chain.child.declareAll? [utf8 "n"] [k] = some frame := rfl
    have hn : (called frame a).chain.lookup? (utf8 "n") = some k := rfl
    apply yields_oneBelow ho hchecks hf (.cons ht .nil) hframe rfl hn
    · exact fun hlt => if_pos hlt
    · intro hge
      have h2 : 2 ≤ k.toInt := toInt_le_of_not_lt hge
      have h1 := toInt_add_neg_one (i := k) (by omega)
      obtain ⟨less, rfl⟩ : ∃ less, rest = less + 2 := ⟨rest - 2, by omega⟩
      rw [← mul_factValue h2]
      have harg : Yields o (less + 2) _ (called frame a) (k + -1) (called frame a) :=
        .plus ho hn (-1)
      have hless : 3 * (k + -1).toInt.toNat + 3 ≤ less + 2 := by omega
      apply Yields.binary ho (.var ho hn)
      exact ih _ (by omega) (a := called frame a) hchecks hf harg hless rfl

/-- The base is handed down from call to call. -/
theorem yields_pow (ho : o.limit = none) (hchecks : a.checks = none)
    (hf : a.chain.lookupFunc? (utf8 "pow") = pow.function?) {s t : Tree} {b e : Int64}
    (hs : Yields o fuel s a b a) (ht : Yields o fuel t a e a)
    (hfuel : 3 * e.toInt.toNat + 3 ≤ fuel) :
    Yields o (fuel + 1) (call "pow" [s, t]) a (powValue b e) a := by
  induction hj : e.toInt.toNat using Nat.strong_induction_on generalizing a s t e fuel with
  | _ j ih =>
    obtain ⟨rest, rfl⟩ : ∃ rest, fuel = rest + 3 := ⟨fuel - 3, by omega⟩
    let frame : Frame := { vars := [(utf8 "b", b), (utf8 "e", e)], sink := a.chain.sink }
    have hframe : a.chain.child.declareAll? [utf8 "b", utf8 "e"] [b, e] = some frame := rfl
    have hb : (called frame a).chain.lookup? (utf8 "b") = some b := rfl
    have he : (called frame a).chain.lookup? (utf8 "e") = some e := rfl
    apply yields_oneBelow ho hchecks hf (.cons hs (.cons ht .nil)) hframe rfl he
    · exact fun hlt => if_pos hlt
    · intro hge
      have h1 : 1 ≤ e.toInt := toInt_le_of_not_lt hge
      have h0 := toInt_add_neg_one h1
      obtain ⟨less, rfl⟩ : ∃ less, rest = less + 2 := ⟨rest - 2, by omega⟩
      rw [← mul_powValue h1]
      have hbase : Yields o (less + 2) _ (called frame a) b (called frame a) := .var ho hb
      have hexp : Yields o (less + 2) _ (called frame a) (e + -1) (called frame a) :=
        .plus ho he (-1)
      have hless : 3 * (e + -1).toInt.toNat + 3 ≤ less + 2 := by omega
      apply Yields.binary ho (.var ho hb)
      exact ih _ (by omega) (a := called frame a) hchecks hf hbase hexp hless rfl

/-- With no limit and no end of checks, and in every scope in which its name means the function of
the library, a call of `fib`, `fact` or `pow` returns the Fibonacci number, the factorial or the
power, reduced to 64 bits with a sign. It leaves every frame as it was and prints nothing. -/
theorem calls_return (o : Options) (ho : o.limit = none) (m : Machine) (hchecks : m.checks = none) :
    (m.chain.lookupFunc? (utf8 "fib") = fib.function? → ∀ i : Int64,
      Returns o m (call "fib" [.literal i]) (3 * i.toInt.toNat + 4)
        (if i < 3 then 1 else .ofNat (Nat.fib i.toInt.toNat))) ∧
    (m.chain.lookupFunc? (utf8 "fact") = fact.function? → ∀ k : Int64,
      Returns o m (call "fact" [.literal k]) (3 * k.toInt.toNat + 4)
        (if k < 2 then 1 else .ofNat (Nat.factorial k.toInt.toNat))) ∧
    (m.chain.lookupFunc? (utf8 "pow") = pow.function? → ∀ b e : Int64,
      Returns o m (call "pow" [.literal b, .literal e]) (3 * e.toInt.toNat + 4)
        (if e < 1 then 1 else .ofInt (b.toInt ^ e.toInt.toNat))) := by
  have hliteral : ∀ {need fuel : Nat}, need + 3 ≤ fuel → ∀ v : Int64,
      Yields o fuel (.literal v) m.restarted v m.restarted := by
    intro need fuel hfuel v
    obtain ⟨less, rfl⟩ : ∃ less, fuel = less + 1 := ⟨fuel - 1, by omega⟩
    exact .literal ho v
  refine ⟨fun hf i => ?_, fun hf k => ?_, fun hf b e => ?_⟩
  · apply Ends.of_yields
    exact fun fuel hfuel => yields_fib (a := m.restarted) ho hchecks hf (hliteral hfuel i) hfuel
  · apply Ends.of_yields
    exact fun fuel hfuel => yields_fact (a := m.restarted) ho hchecks hf (hliteral hfuel k) hfuel
  · apply Ends.of_yields
    exact fun fuel hfuel => yields_pow (a := m.restarted) ho hchecks hf (hliteral hfuel b)
      (hliteral hfuel e) hfuel

/-- A frame that binds the names of the parameters, below a root with the functions. -/
def caller : Machine where
  chain := [{ vars := [(utf8 "i", 7), (utf8 "n", -1), (utf8 "b", 10), (utf8 "e", 5)] },
    { funcs := [fib, fact, pow].filterMap fun t => t.function?.map fun g => (g.name, g) }]

/-- The factorial and the last power wrap around, and a negative exponent counts as zero. -/
theorem calls_return_caller :
    caller.chain.lookupFunc? (utf8 "fib") = fib.function? ∧
      caller.chain.lookupFunc? (utf8 "fact") = fact.function? ∧
      caller.chain.lookupFunc? (utf8 "pow") = pow.function? ∧
      Returns {} caller (call "fib" [.literal 20]) 64 6765 ∧
      Returns {} caller (call "fact" [.literal 21]) 67 (-4249290049419214848) ∧
      Returns {} caller (call "pow" [.literal 3, .literal (-4)]) 4 1 ∧
      Returns {} caller (call "pow" [.literal (-3), .literal 41]) 127 420491770248316829 := by
  have hfib : caller.chain.lookupFunc? (utf8 "fib") = fib.function? := rfl
  have hfact : caller.chain.lookupFunc? (utf8 "fact") = fact.function? := rfl
  have hpow : caller.chain.lookupFunc? (utf8 "pow") = pow.function? := rfl
  obtain ⟨h, h', h''⟩ := calls_return {} rfl caller rfl
  exact ⟨hfib, hfact, hpow, h hfib 20, h' hfact 21, h'' hpow 3 (-4), h'' hpow (-3) 41⟩

end Library

end TreeLang
