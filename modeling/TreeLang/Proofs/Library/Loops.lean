import TreeLang.Proofs.Eval.Output
import TreeLang.Proofs.Library.Recursion

/-!
# The loops of the library

`sum` and `countdown` are the functions of the library with a loop. The variables of the loop of
`sum` are in the frame of a sequence, the parameter is in the frame of the call above it, and each
turn runs in one more frame below; the loop of `countdown` assigns the parameter itself. Since the
names are bound in these frames, they hide what the caller binds, and no frame of the caller is
written to.

`sum` goes on as long as its counter is less than its parameter plus one. For the greatest number
this bound wraps around to the least one, so there the loop makes no turn and the sum is zero; for
every other number it is the sum of the numbers up to it, reduced to 64 bits
(`Library.sum_returns`). `countdown` prints its parameter and the numbers below it down to one
(`Library.countdown_prints`).
-/

set_option autoImplicit false

namespace TreeLang

/-! ## Sinks that are printed to -/

/-- A sink with one more value, whatever room it has. -/
def Sink.add (s : Sink) (v : Int64) : Sink := { s with printed := v :: s.printed }

/-- A sink without a limit takes every value. -/
theorem Sink.print?_of_room {s : Sink} (h : s.room = none) (v : Int64) :
    s.print? v = some (s.add v) := by
  obtain ⟨printed, room⟩ := s
  cases h
  rfl

/-- The sinks after values were printed to one of them. -/
def Sinks.printAll (s : Sinks) (k : Nat) (vs : List Int64) : Sinks :=
  vs.foldl (fun s v => s.set k ((s.get k).add v)) s

/-- Values that are printed to a sink are added to it, and all other sinks are as before. -/
theorem Sinks.get_printAll (s : Sinks) (k : Nat) (vs : List Int64) (j : Nat) :
    (s.printAll k vs).get j =
      if j = k then { s.get k with printed := vs.reverse ++ (s.get k).printed } else s.get j := by
  induction vs generalizing s with
  | nil => by_cases hj : j = k <;> simp [printAll, hj]
  | cons v vs ih =>
    rw [printAll, List.foldl_cons, ← printAll, ih, get_set, get_set, if_pos rfl]
    by_cases hj : j = k <;> simp [hj, Sink.add]

theorem Sinks.printAll_append_singleton (s : Sinks) (k : Nat) (vs : List Int64) (v : Int64) :
    s.printAll k (vs ++ [v]) = (s.printAll k vs).set k (((s.printAll k vs).get k).add v) := by
  rw [printAll, List.foldl_append]
  rfl

/-- The text of a sink after values were printed to it. -/
theorem Sinks.text_get_printAll (s : Sinks) (k : Nat) (vs : List Int64) :
    ((s.printAll k vs).get k).text = (s.get k).text ++ vs.flatMap Sink.line := by
  rw [get_printAll, if_pos rfl, Sink.text_of_printed rfl, List.reverse_reverse]

namespace Library

open Eval (Yields called enter leave leaveBody)
open Finset (Icc)

variable {o : Options} {a : Machine} {fuel : Nat}

/-! ## Sums -/

theorem sum_Icc_succ (i : Nat) : ∑ k ∈ Icc (1 : Int) (i + 1), k = ∑ k ∈ Icc (1 : Int) i, k + (i + 1) := by
  rw [← Finset.insert_Icc_right_eq_Icc_add_one (by omega), Finset.sum_insert (by simp), add_comm]

/-- Twice the sum of the numbers up to one of them. -/
theorem two_mul_sum_Icc (i : Nat) : 2 * ∑ k ∈ Icc (1 : Int) i, k = i * (i + 1) := by
  induction i with
  | zero => rfl
  | succ i ih =>
    push_cast
    rw [sum_Icc_succ, mul_add, ih]
    ring

/-- How many turns the loop of `sum` makes. -/
def sumTurns (n : Int64) : Nat := ((n + 1).toInt - 1).toNat

/-- One more is no overflow but for the greatest number. -/
theorem toInt_add_one {n : Int64} (hn : n ≠ Int64.maxValue) : (n + 1).toInt = n.toInt + 1 := by
  have hle := n.le_toInt
  have hlt := n.toInt_lt
  have hne : n.toInt ≠ Int64.maxValue.toInt := fun h => hn (Int64.toInt_inj.1 h)
  have hmax : Int64.maxValue.toInt = 2 ^ 63 - 1 := rfl
  have hone : (1 : Int64).toInt = 1 := rfl
  rw [Int64.toInt_add, hone]
  apply Int.bmod_eq_of_le <;> omega

/-- But for the greatest number, the loop takes as many turns as the number it sums up to, or none
if that is negative. -/
theorem sumTurns_of_ne {n : Int64} (hn : n ≠ Int64.maxValue) : sumTurns n = n.toInt.toNat := by
  rw [sumTurns, toInt_add_one hn, Int.add_sub_cancel]

/-- The bound wraps around. -/
theorem sumTurns_maxValue : sumTurns Int64.maxValue = 0 := rfl

/-- The counter is below the bound as long as there are turns left. -/
theorem counter_lt_iff {n : Int64} {i : Nat} (hi : i ≤ sumTurns n) :
    Int64.ofNat (i + 1) < n + 1 ↔ i < sumTurns n := by
  have hlt := (n + 1).toInt_lt
  have hcounter : (Int64.ofNat (i + 1)).toInt = i + 1 := by
    rw [sumTurns] at hi
    exact Int64.toInt_ofNat_of_lt (by omega)
  rw [Int64.lt_iff_toInt_lt, hcounter, sumTurns]
  omega

/-- The machine in the loop of `sum`, with the sum so far and the counter. -/
def summing (n : Int64) (a : Machine) (acc k : Int64) : Machine :=
  enter { vars := [(utf8 "acc", acc), (utf8 "k", k)], sink := a.chain.sink }
    (called { vars := [(utf8 "n", n)], sink := a.chain.sink } a)

/-- The condition of the loop of `sum`. -/
def sumTest : Tree := .binary .lt (var "k") (.binary .add (var "n") (num 1))

/-- The turns of the loop of `sum`. -/
def sumBody : Tree :=
  .seq [assign "acc" (.binary .add (var "acc") (var "k")), assign "k" (.binary .add (var "k") (num 1))]

/-- The test of the loop compares the counter with the number after the last one. -/
theorem yields_sumTest (ho : o.limit = none) (n acc k : Int64) :
    Yields o (fuel + 3) sumTest (summing n a acc k) (Op.lt.apply k (n + 1)) (summing n a acc k) := by
  apply Yields.binary ho
  · exact .var ho rfl
  · exact .plus ho rfl 1

/-- A turn adds the counter to the sum and then one to the counter. Both are found in the frame
above the one that the turn runs in. -/
theorem yields_sumBody (ho : o.limit = none) (n acc k : Int64) :
    Yields o (fuel + 4) sumBody (summing n a acc k) (k + 1) (summing n a (acc + k) (k + 1)) := by
  let turn (acc k : Int64) : Machine := enter { sink := a.chain.sink } (summing n a acc k)
  have hacc : Yields o (fuel + 3) (assign "acc" (.binary .add (var "acc") (var "k"))) (turn acc k)
      (acc + k) (turn (acc + k) k) := by
    refine .assign ho (b := turn acc k) ?_ rfl
    apply Yields.binary ho
    · exact .var ho rfl
    · exact .var ho rfl
  have hk : Yields o (fuel + 3) (assign "k" (.binary .add (var "k") (.literal 1))) (turn (acc + k) k)
      (k + 1) (turn (acc + k) (k + 1)) := by
    refine .assign ho (b := turn (acc + k) k) ?_ rfl
    exact .plus ho rfl 1
  exact .seq ho (.cons hacc (.cons hk .nil))

/-- The loop of `sum` adds up the numbers from one to the number of its turns. -/
theorem yields_sumLoop (ho : o.limit = none) (hchecks : a.checks = none) {n : Int64}
    (hfuel : sumTurns n + 4 ≤ fuel) :
    ∃ w, Yields o (fuel + 1) (.loop sumTest sumBody) (summing n a 0 1) w
      (summing n a (.ofInt (∑ k ∈ Icc (1 : Int) (sumTurns n), k)) (.ofNat (sumTurns n + 1))) := by
  obtain ⟨less, rfl⟩ : ∃ less, fuel = less + 4 := ⟨fuel - 4, by omega⟩
  -- After so many turns the numbers up to it are added, and the counter is at the next one.
  let s (i : Nat) : Machine :=
    summing n a (.ofInt (∑ k ∈ Icc (1 : Int) i, k)) (.ofNat (i + 1))
  let w (i : Nat) : Int64 := if i = 0 then 0 else .ofNat (i + 1)
  have htest : ∀ i < sumTurns n, Yields o (less + 4) sumTest (s i) 1 (s i) := by
    intro i hi
    have hlt := (Op.lt_apply_eq_one_iff _ _).2 ((counter_lt_iff hi.le).2 hi)
    rw [← hlt]
    exact yields_sumTest ho n _ _
  have hbody : ∀ i < sumTurns n, Yields o (less + 4) sumBody (s i) (w (i + 1)) (s (i + 1)) := by
    intro i _
    -- Reducing to 64 bits respects sums, so the sum may wrap around on the way.
    have hsum : Int64.ofInt (∑ k ∈ Icc (1 : Int) (i + 1 : Nat), k) =
        .ofInt (∑ k ∈ Icc (1 : Int) i, k) + .ofNat (i + 1) := by
      rw [Nat.cast_add_one, sum_Icc_succ, Int64.ofInt_add, ← Int64.ofInt_eq_ofNat, Nat.cast_add_one]
    have hcounter : Int64.ofNat (i + 1 + 1) = .ofNat (i + 1) + 1 := Int64.ofNat_add (i + 1) 1
    show Yields o (less + 4) sumBody (summing n a _ _) (.ofNat (i + 1 + 1)) (summing n a _ _)
    rw [hsum, hcounter]
    exact yields_sumBody ho n _ _
  have hend : Op.lt.apply (.ofNat (sumTurns n + 1)) (n + 1) ≠ 1 := by
    rw [Ne, Op.lt_apply_eq_one_iff, counter_lt_iff le_rfl]
    exact Nat.lt_irrefl _
  exact ⟨_, Yields.loop (s := s) (w := w) ho (fun _ _ => hchecks) rfl htest hbody hend
    (yields_sumTest ho n _ _) (by omega)⟩

/-- A call of `sum` yields the sum of the numbers of its turns. The parameter is in the frame of the
call, and the variables are declared in that of the sequence. -/
theorem yields_sum (ho : o.limit = none) (hchecks : a.checks = none)
    (hf : a.chain.lookupFunc? (utf8 "sum") = sum.function?) {t : Tree} {n : Int64}
    (ht : Yields o fuel t a n a) (hfuel : sumTurns n + 6 ≤ fuel) :
    Yields o (fuel + 1) (call "sum" [t]) a (.ofInt (∑ k ∈ Icc (1 : Int) (sumTurns n), k)) a := by
  obtain ⟨less, rfl⟩ : ∃ less, fuel = less + 2 := ⟨fuel - 2, by omega⟩
  let frame : Frame := { vars := [(utf8 "n", n)], sink := a.chain.sink }
  have hframe : a.chain.child.declareAll? [utf8 "n"] [n] = some frame := rfl
  let inside : Machine := enter { sink := a.chain.sink } (called frame a)
  let started : Machine :=
    enter { vars := [(utf8 "acc", 0)], sink := a.chain.sink } (called frame a)
  have hacc : Yields o (less + 1) (.declare (utf8 "acc") (.literal 0)) inside 0 started := by
    obtain ⟨rest, rfl⟩ : ∃ rest, less = rest + 1 := ⟨less - 1, by omega⟩
    exact .declare ho (b := inside) (.literal ho 0) rfl
  have hk : Yields o (less + 1) (.declare (utf8 "k") (.literal 1)) started 1
      (summing n a 0 1) := by
    obtain ⟨rest, rfl⟩ : ∃ rest, less = rest + 1 := ⟨less - 1, by omega⟩
    exact .declare ho (b := started) (.literal ho 1) rfl
  have hturns : sumTurns n + 4 ≤ less := by omega
  obtain ⟨w, hloop⟩ := yields_sumLoop (a := a) ho hchecks hturns
  have hvar : Yields o (less + 1) (var "acc") _ _ _ :=
    .var ho (a := summing n a (.ofInt (∑ k ∈ Icc (1 : Int) (sumTurns n), k))
      (.ofNat (sumTurns n + 1))) rfl
  apply Yields.callSame ho hchecks hf (.cons ht .nil) hframe rfl
  exact .seq ho (.cons hacc (.cons hk (.cons hloop (.cons hvar .nil))))

/-- The sum of the numbers up to the greatest one, reduced to 64 bits, is not zero. -/
theorem ofInt_sum_maxValue :
    Int64.ofInt (∑ k ∈ Icc (1 : Int) Int64.maxValue.toInt, k) = -4611686018427387904 := by
  have htwice := two_mul_sum_Icc 9223372036854775807
  have hsum : ∑ k ∈ Icc (1 : Int) Int64.maxValue.toInt, k =
      42535295865117307928310139910543638528 := by
    show ∑ k ∈ Icc (1 : Int) (9223372036854775807 : Nat), k = _
    omega
  rw [hsum]
  rfl

/-- A run of a call of `sum` has that sum as its value. -/
theorem returns_sum (ho : o.limit = none) {m : Machine} (hchecks : m.checks = none)
    (hf : m.chain.lookupFunc? (utf8 "sum") = sum.function?) (n : Int64) :
    Returns o m (call "sum" [.literal n]) (sumTurns n + 7)
      (.ofInt (∑ k ∈ Icc (1 : Int) (sumTurns n), k)) := by
  apply Ends.of_yields
  intro fuel hfuel
  exact yields_sum (a := m.restarted) ho hchecks hf (.literal_of_pos ho (by omega) n) hfuel

theorem Icc_one_toNat (i : Int) : Icc (1 : Int) (i.toNat : Int) = Icc 1 i := by
  ext k
  simp only [Finset.mem_Icc]
  omega

/-- With no limit and no end of checks, and in every scope in which its name means the function of
the library, a call of `sum` returns. For every number but the greatest one it returns the sum of
the numbers from one up to it, reduced to 64 bits with a sign; for the greatest one it returns zero
at once, which is not that sum. It leaves every frame as it was and prints nothing. -/
theorem sum_returns (o : Options) (ho : o.limit = none) (m : Machine) (hchecks : m.checks = none)
    (hf : m.chain.lookupFunc? (utf8 "sum") = sum.function?) :
    (∀ n, n ≠ Int64.maxValue → Returns o m (call "sum" [.literal n]) (n.toInt.toNat + 7)
      (.ofInt (∑ k ∈ Icc 1 n.toInt, k))) ∧
    Returns o m (call "sum" [.literal Int64.maxValue]) 7 0 ∧
      Int64.ofInt (∑ k ∈ Icc 1 Int64.maxValue.toInt, k) ≠ 0 := by
  have hreturns := returns_sum ho hchecks hf
  refine ⟨fun n hn => ?_, ?_, ?_⟩
  · rw [← Icc_one_toNat, ← sumTurns_of_ne hn]
    exact hreturns n
  · have hgreatest := hreturns Int64.maxValue
    rwa [sumTurns_maxValue] at hgreatest
  · rw [ofInt_sum_maxValue]
    decide

/-- The caller binds the names of the parameter and of both variables. -/
def adder : Machine where
  chain := [{ vars := [(utf8 "n", 7), (utf8 "k", -1), (utf8 "acc", 100)] },
    { funcs := sum.function?.toList.map fun g => (g.name, g) }]

theorem sum_returns_adder :
    adder.chain.lookupFunc? (utf8 "sum") = sum.function? ∧
      Returns {} adder (call "sum" [.literal 10]) 17 55 ∧
      Returns {} adder (call "sum" [.literal (-3)]) 7 0 ∧
      Returns {} adder (call "sum" [.literal Int64.maxValue]) 7 0 := by
  have hf : adder.chain.lookupFunc? (utf8 "sum") = sum.function? := rfl
  obtain ⟨hreturns, hgreatest, -⟩ := sum_returns {} rfl adder rfl hf
  exact ⟨hf, hreturns 10 (by decide), hreturns (-3) (by decide), hgreatest⟩

/-! ## Counting down -/

/-- The condition of the loop of `countdown`. -/
def countdownTest : Tree := .binary .gt (var "n") (num 0)

/-- The turns of the loop of `countdown`. -/
def countdownBody : Tree := .seq [.print (var "n"), assign "n" (.binary .add (var "n") (num (-1)))]

/-- The machine in the loop of `countdown`, with the parameter and the values printed so far. -/
def counting (a : Machine) (k : Int64) (printed : List Int64) : Machine :=
  called { vars := [(utf8 "n", k)], sink := a.chain.sink }
    { a with sinks := a.sinks.printAll a.chain.sink printed }

/-- The test of the loop compares the parameter with zero. -/
theorem yields_countdownTest (ho : o.limit = none) (k : Int64) (printed : List Int64) :
    Yields o (fuel + 2) countdownTest (counting a k printed) (Op.gt.apply k 0)
      (counting a k printed) :=
  .binary ho (.var ho rfl) (.literal ho 0)

/-- A turn prints the parameter and takes one from it. The assignment is made in a frame below that
of the call, which is the nearest one that binds the parameter. -/
theorem yields_countdownBody (ho : o.limit = none)
    (hroom : (a.sinks.get a.chain.sink).room = none) (k : Int64) (printed : List Int64) :
    Yields o (fuel + 4) countdownBody (counting a k printed) (k + -1)
      (counting a (k + -1) (printed ++ [k])) := by
  let turn (k : Int64) (printed : List Int64) : Machine :=
    enter { sink := a.chain.sink } (counting a k printed)
  have hprint : Yields o (fuel + 3) (.print (var "n")) (turn k printed) k (turn k (printed ++ [k])) := by
    have hsink : ((a.sinks.printAll a.chain.sink printed).get a.chain.sink).room = none := by
      rw [Sinks.get_printAll, if_pos rfl]
      exact hroom
    have hn : Yields o (fuel + 2) (var "n") (turn k printed) k (turn k printed) := .var ho rfl
    show Yields o (fuel + 3) _ _ k (enter _ (called _
      { a with sinks := a.sinks.printAll a.chain.sink (printed ++ [k]) }))
    rw [Sinks.printAll_append_singleton]
    exact .print ho hn (Sink.print?_of_room hsink k)
  have hassign : Yields o (fuel + 3) (assign "n" (.binary .add (var "n") (.literal (-1))))
      (turn k (printed ++ [k])) (k + -1) (turn (k + -1) (printed ++ [k])) := by
    refine .assign ho (b := turn k (printed ++ [k])) ?_ rfl
    exact .plus ho rfl (-1)
  exact .seq ho (.cons hprint (.cons hassign .nil))

/-- The values that `countdown` prints in so many turns. -/
def countdownValues (n : Int64) (turns : Nat) : List Int64 :=
  (List.range turns).map fun (i : Nat) => .ofInt (n.toInt - i)

/-- The parameter does not wrap around as long as there are turns left. -/
theorem toInt_ofInt_sub {n : Int64} {i : Nat} (hi : i ≤ n.toInt.toNat) :
    (Int64.ofInt (n.toInt - i)).toInt = n.toInt - i := by
  have hle := n.le_toInt
  have hlt := n.toInt_lt
  apply Int64.toInt_ofInt_of_le <;> omega

/-- The parameter stays above zero for as many turns as it was at the start. -/
theorem parameter_pos_iff {n : Int64} {i : Nat} (hi : i ≤ n.toInt.toNat) :
    0 < Int64.ofInt (n.toInt - i) ↔ i < n.toInt.toNat := by
  have hzero : (0 : Int64).toInt = 0 := rfl
  rw [Int64.lt_iff_toInt_lt, toInt_ofInt_sub hi, hzero]
  omega

/-- After so many turns the parameter is less by as many, and what it was before each of them is
printed. The value of a turn is the parameter that it leaves, and that of the last one is zero. -/
theorem yields_countdownLoop (ho : o.limit = none) (hchecks : a.checks = none)
    (hroom : (a.sinks.get a.chain.sink).room = none) {n : Int64} (hfuel : n.toInt.toNat + 4 ≤ fuel) :
    ∃ k, Yields o (fuel + 1) (.loop countdownTest countdownBody) (counting a n []) 0
      (counting a k (countdownValues n n.toInt.toNat)) := by
  obtain ⟨less, rfl⟩ : ∃ less, fuel = less + 4 := ⟨fuel - 4, by omega⟩
  let s (i : Nat) : Machine := counting a (.ofInt (n.toInt - i)) (countdownValues n i)
  let w (i : Nat) : Int64 := if i = 0 then 0 else .ofInt (n.toInt - i)
  have hlast : w n.toInt.toNat = 0 := by
    by_cases hn : n.toInt.toNat = 0
    · exact if_pos hn
    · have hsub : n.toInt - (n.toInt.toNat : Int) = 0 := by omega
      simp only [w, if_neg hn, hsub]
      rfl
  have hstart : counting a n [] = s 0 := by
    simp [s, countdownValues]
  have htest : ∀ i < n.toInt.toNat, Yields o (less + 4) countdownTest (s i) 1 (s i) := by
    intro i hi
    have hpos := (Op.gt_apply_eq_one_iff _ 0).2 ((parameter_pos_iff hi.le).2 hi)
    rw [← hpos]
    exact yields_countdownTest ho _ _
  have hbody : ∀ i < n.toInt.toNat,
      Yields o (less + 4) countdownBody (s i) (w (i + 1)) (s (i + 1)) := by
    intro i _
    have hnext : Int64.ofInt (n.toInt - (i + 1 : Nat)) = .ofInt (n.toInt - i) + -1 := by
      rw [Nat.cast_add_one, ← sub_sub, sub_eq_add_neg _ 1, Int64.ofInt_add]
      rfl
    have hvalues : countdownValues n (i + 1) = countdownValues n i ++ [.ofInt (n.toInt - i)] := by
      simp [countdownValues, List.range_succ]
    show Yields o (less + 4) countdownBody _ (.ofInt (n.toInt - (i + 1 : Nat))) (counting a _ _)
    rw [hnext, hvalues]
    exact yields_countdownBody ho hroom _ _
  have hend : Op.gt.apply (.ofInt (n.toInt - n.toInt.toNat)) 0 ≠ 1 := by
    rw [Ne, Op.gt_apply_eq_one_iff, parameter_pos_iff le_rfl]
    exact Nat.lt_irrefl _
  refine ⟨.ofInt (n.toInt - n.toInt.toNat), ?_⟩
  rw [hstart, ← hlast]
  exact Yields.loop (s := s) (w := w) ho (fun _ _ => hchecks) rfl htest hbody hend
    (yields_countdownTest ho _ _) (by omega)

/-- A call of `countdown` prints the numbers from its argument down to one, and yields zero. -/
theorem yields_countdown (ho : o.limit = none) (hchecks : a.checks = none)
    (hf : a.chain.lookupFunc? (utf8 "countdown") = countdown.function?)
    (hroom : (a.sinks.get a.chain.sink).room = none) {t : Tree} {n : Int64}
    (ht : Yields o fuel t a n a) (hfuel : n.toInt.toNat + 5 ≤ fuel) :
    Yields o (fuel + 1) (call "countdown" [t]) a 0
      { a with sinks := a.sinks.printAll a.chain.sink (countdownValues n n.toInt.toNat) } := by
  obtain ⟨less, rfl⟩ : ∃ less, fuel = less + 1 := ⟨fuel - 1, by omega⟩
  have hframe : a.chain.child.declareAll? [utf8 "n"] [n] =
      some { vars := [(utf8 "n", n)], sink := a.chain.sink } := rfl
  have hturns : n.toInt.toNat + 4 ≤ less := by omega
  obtain ⟨k, hloop⟩ := yields_countdownLoop ho hchecks hroom hturns
  exact Yields.call ho hchecks hf (.cons ht .nil) hframe rfl hloop

/-- The lines of what `countdown` prints are the decimal forms of the numbers from the parameter
down to one. -/
theorem lines_countdownValues (n : Int64) :
    (countdownValues n n.toInt.toNat).flatMap Sink.line =
      (List.range' 1 n.toInt.toNat).reverse.flatMap fun k => Text.ofNat k ++ Text.newline := by
  rw [countdownValues, List.reverse_range', List.flatMap_map, List.flatMap_map]
  refine List.flatMap_congr fun i hi => ?_
  have hlt : i < n.toInt.toNat := List.mem_range.1 hi
  obtain ⟨j, hj⟩ : ∃ j : Nat, n.toInt - i = j := ⟨(n.toInt - i).toNat, by omega⟩
  have hindex : 1 + n.toInt.toNat - 1 - i = j := by omega
  rw [Sink.line, Text.ofInt64, toInt_ofInt_sub hlt.le, hj, hindex]
  rfl

/-- With no limit, no end of checks and no end of room in the sink, and in every scope in which its
name means the function of the library, a call of `countdown` ends with the value zero. It prints
the number and those below it down to one, each on a line of its own, and nothing for a number below
one. It leaves every frame as it was. -/
theorem countdown_prints (o : Options) (ho : o.limit = none) (m : Machine) (hchecks : m.checks = none)
    (hf : m.chain.lookupFunc? (utf8 "countdown") = countdown.function?)
    (hroom : (m.sinks.get m.chain.sink).room = none) (n : Int64) :
    ∃ b, Ends o m (call "countdown" [.literal n]) (n.toInt.toNat + 6) 0 b ∧ b.chain = m.chain ∧
      (b.sinks.get m.chain.sink).text = (m.sinks.get m.chain.sink).text ++
        ((List.range' 1 n.toInt.toNat).reverse.flatMap fun k => Text.ofNat k ++ Text.newline) ∧
      ∀ k, k ≠ m.chain.sink → b.sinks.get k = m.sinks.get k := by
  refine ⟨{ m.restarted with
    sinks := m.sinks.printAll m.chain.sink (countdownValues n n.toInt.toNat) }, ?_, rfl, ?_, ?_⟩
  · apply Ends.of_yields
    intro fuel hfuel
    exact yields_countdown (a := m.restarted) ho hchecks hf hroom (.literal_of_pos ho (by omega) n)
      hfuel
  · rw [← lines_countdownValues]
    exact Sinks.text_get_printAll _ _ _
  · intro k hk
    exact (Sinks.get_printAll _ _ _ k).trans (if_neg hk)

/-- The caller binds the name of the parameter, and has printed before. -/
def counter : Machine where
  chain := [{ vars := [(utf8 "n", 7)], sink := 2 },
    { funcs := countdown.function?.toList.map fun g => (g.name, g) }]
  sinks := [(2, { printed := [9] })]

theorem countdown_prints_counter :
    counter.chain.lookupFunc? (utf8 "countdown") = countdown.function? ∧
      (counter.sinks.get counter.chain.sink).room = none ∧
      ∃ b, Ends {} counter (call "countdown" [.literal 3]) 9 0 b ∧ b.chain = counter.chain ∧
        (b.sinks.get 2).text = utf8 "9\n3\n2\n1\n" ∧ b.sinks.get 0 = {} := by
  have hf : counter.chain.lookupFunc? (utf8 "countdown") = countdown.function? := rfl
  obtain ⟨b, hends, hchain, htext, hother⟩ := countdown_prints {} rfl counter rfl hf rfl 3
  exact ⟨hf, rfl, b, hends, hchain, htext, hother 0 (by decide)⟩

end Library

end TreeLang
