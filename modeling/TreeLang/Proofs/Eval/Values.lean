import TreeLang.Proofs.Eval.Course

/-!
# What a tree yields

With no limit on the trees, a run from a machine that returns is described by its value and by the
machine it leaves. `Eval.Gives` says this of a run and `Eval.Yields` of a tree and some fuel,
whatever calls were recorded before and are recorded now. There is a rule for each form of tree that
puts the description of a tree together from those of the trees inside it. A call is described by
its body, run in the frame that binds the parameters, and a loop by the machines between its turns.
-/

set_option autoImplicit false

namespace TreeLang

/-- Declare variables one after the other, as far as there are names and values. -/
def Frame.declareAll? (f : Frame) : List Text → List Int64 → Option Frame
  | x :: xs, v :: vs => (f.declare? x v).bind fun f' => f'.declareAll? xs vs
  | _, _ => some f

/-! ## Comparisons -/

theorem Op.lt_apply_eq_one_iff (v w : Int64) : Op.lt.apply v w = 1 ↔ v < w := by
  by_cases h : v < w <;> simp [Op.apply, ofBool, h]

theorem Op.gt_apply_eq_one_iff (v w : Int64) : Op.gt.apply v w = 1 ↔ w < v := by
  by_cases h : w < v <;> simp [Op.apply, ofBool, h]

namespace Eval

variable {α β : Type} {o : Options} {fuel : Nat} {a b c : Machine}

/-- A run from the first machine has the value, and leaves the second machine but for the calls that
are recorded. -/
def Gives (x : Eval α) (a : Machine) (v : α) (b : Machine) : Prop :=
  ∀ calls, ∃ calls', x { a with calls := calls } = .ok v { b with calls := calls' }

/-- A run of the tree from the first machine has the value, and leaves the second machine but for
the calls that are recorded. -/
def Yields (o : Options) (fuel : Nat) (t : Tree) (a : Machine) (v : Int64) (b : Machine) : Prop :=
  Gives (tree o fuel t) a v b

/-- The machine inside a function body with a frame. -/
def called (frame : Frame) (m : Machine) : Machine := enter frame { m with depth := m.depth + 1 }

/-! ## Runs -/

namespace Gives

/-- A run that does the same whatever was recorded, and records nothing. -/
theorem of_ok {x : Eval α} {v : α}
    (h : ∀ calls, x { a with calls := calls } = .ok v { b with calls := calls }) : Gives x a v b :=
  fun calls => ⟨calls, h calls⟩

theorem pure (v : α) : Gives (Pure.pure v : Eval α) a v a := of_ok fun _ => rfl

/-- What the first run gives is what the second one starts from. -/
theorem bind {x : Eval α} {f : α → Eval β} {v : α} {w : β} (hx : Gives x a v b)
    (hf : Gives (f v) b w c) : Gives (x >>= f) a w c := by
  intro calls
  obtain ⟨between, hx⟩ := hx calls
  obtain ⟨after, hf⟩ := hf between
  exact ⟨after, (bind_ok hx).trans hf⟩

theorem step (ho : o.limit = none) : Gives (step o) a () a :=
  of_ok fun _ => by rw [Eval.step, ho]

theorem check (ha : a.checks = none) : Gives check a () a :=
  of_ok fun _ => by rw [Eval.check, ha]

theorem lookup {x : Text} {v : Int64} (hx : a.chain.lookup? x = some v) : Gives (lookup x) a v a :=
  of_ok fun _ => by rw [Eval.lookup, hx]

theorem lookupFunc {f : Text} {g : Function} (hf : a.chain.lookupFunc? f = some g) :
    Gives (lookupFunc f) a g a :=
  of_ok fun _ => by rw [Eval.lookupFunc, hf]

theorem declare {x : Text} {v : Int64} {chain : Chain} (hx : a.chain.declare? x v = some chain) :
    Gives (declare x v) a () { a with chain := chain } :=
  of_ok fun _ => by rw [Eval.declare, hx]

theorem assign {x : Text} {v : Int64} {chain : Chain} (hx : a.chain.assign? x v = some chain) :
    Gives (assign x v) a () { a with chain := chain } :=
  of_ok fun _ => by rw [Eval.assign, hx]

theorem print {v : Int64} {sink : Sink} (hs : (a.sinks.get a.chain.sink).print? v = some sink) :
    Gives (print v) a () { a with sinks := a.sinks.set a.chain.sink sink } :=
  of_ok fun _ => by rw [Eval.print, hs]

/-- A run in a frame gives its value, and the frame is left. -/
theorem inFrame {x : Eval α} {f : Frame} {v : α} (hx : Gives x (enter f a) v b) :
    Gives (inFrame f x) a v (leave b) := by
  intro calls
  obtain ⟨after, hx⟩ := hx calls
  have hx : x (enter f { a with calls := calls }) = .ok v { b with calls := after } := hx
  refine ⟨after, ?_⟩
  rw [inFrame_eq, around, hx]
  rfl

/-- The body runs after the call was recorded. -/
theorem inBody {x : Eval α} {f : Text} {n : Nat} {v : α}
    (hx : Gives x { a with depth := a.depth + 1 } v b) :
    Gives (inBody o f n x) a v (leaveBody b) := by
  intro calls
  obtain ⟨after, hx⟩ := hx (enterBody o f n { a with calls := calls }).calls
  have hx : x (enterBody o f n { a with calls := calls }) = .ok v { b with calls := after } := hx
  refine ⟨after, ?_⟩
  rw [inBody_eq, around, hx]
  rfl

section Loop

variable {test body : Eval Int64} {turns : Nat} {s : Nat → Machine} {w : Nat → Int64} {last : Int64}

/-- The rest of a loop that makes so many turns: `s i` and `w i` are the machine and the value after
so many of them. -/
theorem repeated (hchecks : ∀ i ≤ turns, (s i).checks = none)
    (htest : ∀ i < turns, Gives test (s i) 1 (s i))
    (hbody : ∀ i < turns, Gives body (s i) (w (i + 1)) (s (i + 1))) (hlast : last ≠ 1)
    (hend : Gives test (s turns) last (s turns)) {i left room : Nat} (hi : i + left = turns)
    (hroom : left < room) : Gives (repeated test body room (w i)) (s i) (w turns) (s turns) := by
  obtain ⟨room, rfl⟩ : ∃ less, room = less + 1 := ⟨room - 1, by omega⟩
  induction left generalizing i room with
  | zero =>
    obtain rfl : i = turns := by omega
    refine .bind (check (hchecks i le_rfl)) (.bind hend ?_)
    rw [if_neg hlast]
    exact .pure (w i)
  | succ left ih =>
    have hlt : i < turns := by omega
    obtain ⟨less, rfl⟩ : ∃ less, room = less + 1 := ⟨room - 1, by omega⟩
    refine .bind (check (hchecks i hlt.le)) (.bind (htest i hlt) ?_)
    rw [if_pos rfl]
    exact .bind (hbody i hlt) (ih (by omega) less (by omega))

end Loop

end Gives

/-! ## Trees -/

namespace Yields

/-- A literal yields its value. -/
theorem literal (ho : o.limit = none) (v : Int64) : Yields o (fuel + 1) (.literal v) a v a :=
  .bind (.step ho) (.pure v)

theorem literal_of_pos (ho : o.limit = none) (hfuel : 0 < fuel) (v : Int64) :
    Yields o fuel (.literal v) a v a := by
  obtain ⟨less, rfl⟩ : ∃ less, fuel = less + 1 := ⟨fuel - 1, by omega⟩
  exact literal ho v

/-- A variable yields the value it is bound to. -/
theorem var (ho : o.limit = none) {x : Text} {v : Int64} (hx : a.chain.lookup? x = some v) :
    Yields o (fuel + 1) (.var x) a v a :=
  .bind (.step ho) (.lookup hx)

/-- An operation yields the value of its operands, which run one after the other. -/
theorem binary (ho : o.limit = none) {op : Op} {s t : Tree} {v w : Int64}
    (hs : Yields o fuel s a v b) (ht : Yields o fuel t b w c) :
    Yields o (fuel + 1) (.binary op s t) a (op.apply v w) c :=
  .bind (.step ho) (.bind hs (.bind ht (.pure _)))

/-- A condition yields what the branch does that is chosen by the value of the test. -/
theorem cond (ho : o.limit = none) {r s t : Tree} {v w : Int64} (hr : Yields o fuel r a v b)
    (hs : v = 1 → Yields o fuel s b w c) (ht : v ≠ 1 → Yields o fuel t b w c) :
    Yields o (fuel + 1) (.cond r s t) a w c := by
  refine .bind (.step ho) (.bind hr ?_)
  by_cases hv : v = 1
  · rw [if_pos hv]
    exact hs hv
  · rw [if_neg hv]
    exact ht hv

/-- Trees that run one after the other, each of them from the machine that the one before it leaves.
The value is the last one, or else the given one. -/
inductive InTurn (o : Options) (fuel : Nat) :
    List Tree → Int64 → Machine → Int64 → Machine → Prop
  | nil {v : Int64} {a : Machine} : InTurn o fuel [] v a v a
  | cons {t : Tree} {ts : List Tree} {u v w : Int64} {a b c : Machine} :
      Yields o fuel t a v b → InTurn o fuel ts v b w c → InTurn o fuel (t :: ts) u a w c

/-- Trees that yield values in turn give the last one. -/
theorem InTurn.inOrder {ts : List Tree} {v w : Int64} (h : InTurn o fuel ts v a w b) :
    Gives (inOrder (tree o fuel) ts v) a w b := by
  induction h with
  | nil => exact .pure _
  | cons ht _ ih => exact .bind ht ih

/-- A sequence yields what its trees do in turn, in a frame that is dropped in the end. -/
theorem seq (ho : o.limit = none) {ts : List Tree} {v : Int64}
    (h : InTurn o fuel ts 0 (enter a.chain.child a) v b) :
    Yields o (fuel + 1) (.seq ts) a v (leave b) :=
  .bind (.step ho) fun calls => Gives.inFrame h.inOrder calls

theorem declare (ho : o.limit = none) {x : Text} {t : Tree} {v : Int64}
    (ht : Yields o fuel t a v b) {chain : Chain} (hx : b.chain.declare? x v = some chain) :
    Yields o (fuel + 1) (.declare x t) a v { b with chain := chain } :=
  .bind (.step ho) (.bind ht (.bind (.declare hx) (.pure v)))

theorem assign (ho : o.limit = none) {x : Text} {t : Tree} {v : Int64}
    (ht : Yields o fuel t a v b) {chain : Chain} (hx : b.chain.assign? x v = some chain) :
    Yields o (fuel + 1) (.assign x t) a v { b with chain := chain } :=
  .bind (.step ho) (.bind ht (.bind (.assign hx) (.pure v)))

theorem print (ho : o.limit = none) {t : Tree} {v : Int64} (ht : Yields o fuel t a v b) {sink : Sink}
    (hs : (b.sinks.get b.chain.sink).print? v = some sink) :
    Yields o (fuel + 1) (.print t) a v { b with sinks := b.sinks.set b.chain.sink sink } :=
  .bind (.step ho) (.bind ht (.bind (.print hs) (.pure v)))

/-- A loop that makes so many turns, given fuel for one more. -/
theorem loop (ho : o.limit = none) {test body : Tree} {turns : Nat} {s : Nat → Machine}
    {w : Nat → Int64} {last : Int64} (hchecks : ∀ i ≤ turns, (s i).checks = none) (hw : w 0 = 0)
    (htest : ∀ i < turns, Yields o fuel test (s i) 1 (s i))
    (hbody : ∀ i < turns, Yields o fuel body (s i) (w (i + 1)) (s (i + 1))) (hlast : last ≠ 1)
    (hend : Yields o fuel test (s turns) last (s turns)) (hfuel : turns < fuel) :
    Yields o (fuel + 1) (.loop test body) (s 0) (w turns) (s turns) := by
  have hloop := Gives.repeated hchecks htest hbody hlast hend (Nat.zero_add turns) hfuel
  rw [hw] at hloop
  exact .bind (.step ho) hloop

/-- Arguments that change nothing are bound to their values. -/
theorem bindArgs {args : List Tree} {vs : List Int64}
    (hargs : List.Forall₂ (fun t v => Yields o fuel t a v a) args vs) {ps : List Text} {f f' : Frame}
    (hf : f.declareAll? ps vs = some f') : Gives (bindArgs (tree o fuel) ps args f) a f' a := by
  induction hargs generalizing ps f with
  | nil =>
    cases ps <;> cases hf <;> exact .pure _
  | @cons t v args vs ht _ ih =>
    cases ps with
    | nil =>
      cases hf
      exact .pure _
    | cons p ps =>
      obtain ⟨g, hg, hf⟩ := Option.bind_eq_some_iff.1 hf
      refine .bind ht ?_
      rw [hg]
      exact ih hf

/-- A call yields what the body does below the frame of the caller. -/
theorem call (ho : o.limit = none) (hchecks : a.checks = none) {f : Text} {g : Function}
    (hg : a.chain.lookupFunc? f = some g) {args : List Tree} {vs : List Int64}
    (hargs : List.Forall₂ (fun t v => Yields o fuel t a v a) args vs) {frame : Frame}
    (hframe : a.chain.child.declareAll? g.params vs = some frame) {t : Tree} (ht : g.body = some t)
    {v : Int64} (hbody : Yields o fuel t (called frame a) v b) :
    Yields o (fuel + 1) (.call f args) a v (leaveBody (leave b)) := by
  have hpresent : Gives (present (tree o fuel) g.body) (called frame a) v b := by
    rw [ht]
    exact hbody
  have hrun : Gives (Eval.bindArgs (tree o fuel) g.params args a.chain.child >>= fun frame =>
      inBody o g.name (min g.params.length args.length)
        (inFrame frame (present (tree o fuel) g.body))) a v (leaveBody (leave b)) :=
    .bind (bindArgs hargs hframe) (.inBody (.inFrame hpresent))
  exact .bind (.step ho) (.bind (.lookupFunc hg) (.bind (.check hchecks) fun calls => hrun calls))

/-- A body that leaves the machine as it was leaves that of the caller as it was. -/
theorem callSame (ho : o.limit = none) (hchecks : a.checks = none) {f : Text} {g : Function}
    (hg : a.chain.lookupFunc? f = some g) {args : List Tree} {vs : List Int64}
    (hargs : List.Forall₂ (fun t v => Yields o fuel t a v a) args vs) {frame : Frame}
    (hframe : a.chain.child.declareAll? g.params vs = some frame) {t : Tree} (ht : g.body = some t)
    {v : Int64} (hbody : Yields o fuel t (called frame a) v (called frame a)) :
    Yields o (fuel + 1) (.call f args) a v a :=
  call ho hchecks hg hargs hframe ht hbody

/-- A condition on a variable that is less than a number. -/
theorem condLess (ho : o.limit = none) {x : Text} {v k : Int64} (hx : a.chain.lookup? x = some v)
    {s t : Tree} {w : Int64} (hs : v < k → Yields o (fuel + 2) s a w b)
    (ht : ¬ v < k → Yields o (fuel + 2) t a w b) :
    Yields o (fuel + 3) (.cond (.binary .lt (.var x) (.literal k)) s t) a w b := by
  apply cond ho (binary ho (var ho hx) (literal ho k))
  · exact fun h => hs ((Op.lt_apply_eq_one_iff v k).1 h)
  · exact fun h => ht fun hlt => h ((Op.lt_apply_eq_one_iff v k).2 hlt)

/-- The sum of a variable and a number. -/
theorem plus (ho : o.limit = none) {x : Text} {v : Int64} (hx : a.chain.lookup? x = some v)
    (k : Int64) : Yields o (fuel + 2) (.binary .add (.var x) (.literal k)) a (v + k) a :=
  binary ho (var ho hx) (literal ho k)

end Yields

end Eval

end TreeLang
