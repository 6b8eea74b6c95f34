import TreeLang.Proofs.Eval.EmptyFrame

/-!
# The top level

Trees at the top level run in the root, one after the other. The trees of a sequence run in a frame
of its own, and with nothing else in the root that frame is to them what the root is to trees at the
top level: the root above it is an empty frame. So a list of trees runs at the top level as it does
as a sequence, but for the sequence itself, which counts as one more tree (`evalAll_seq_alike`).

The two roots may print to different sinks. All that a run can tell of its sink is how many more
lines it takes (`Eval.simulation_elsewhere`).
-/

set_option autoImplicit false

namespace TreeLang

/-! ## Runs that print elsewhere -/

/-- The frame with another sink. -/
def Frame.onto (sink : Nat) (f : Frame) : Frame := { f with sink := sink }

/-- Names are bound the same, whatever the sink. -/
theorem frameMap_onto (sink : Nat) : FrameMap (Frame.onto sink) id id id where
  getVar _ _ := rfl
  getFunc _ _ := Option.map_id_apply.symm
  setVar _ _ _ := rfl
  setFunc _ _ _ := rfl

namespace Chain

variable (i : Nat) (c : Chain) (x : Text)

/-- The scope with all its frames onto one sink. -/
def onto : Chain := c.map (Frame.onto i)

theorem lookup?_onto : (c.onto i).lookup? x = c.lookup? x := (frameMap_onto i).lookup? c x

theorem lookupFunc?_onto : (c.onto i).lookupFunc? x = c.lookupFunc? x :=
  ((frameMap_onto i).lookupFunc? c x).trans Option.map_id_apply

theorem declare?_onto (v : Int64) : (c.onto i).declare? x v = (c.declare? x v).map (onto i) :=
  (frameMap_onto i).declare? c x v

theorem assign?_onto (v : Int64) : (c.onto i).assign? x v = (c.assign? x v).map (onto i) :=
  (frameMap_onto i).assign? c x v

theorem defineFunc_onto (g : Function) : (c.onto i).defineFunc x g = (c.defineFunc x g).onto i :=
  (frameMap_onto i).defineFunc c x g

end Chain

theorem Chain.sink_onto {i : Nat} {c : Chain} (hc : 0 < c.length) : (c.onto i).sink = i := by
  cases c with
  | nil => cases hc
  | cons f up => rfl

namespace Eval

/-- Two machines with the same scope but for the sinks. The first one prints to `i` and the second
one to `j`, after `P` and `Q`, with room for as many lines; both count and ask alike. The scope has
the frame of the start and those that were entered. -/
structure Elsewhere (i j : Nat) (P Q : List Int64) (d : Nat) (a b : Machine) : Prop where
  scope : ∃ c : Chain, c.length = d + 1 ∧ a.chain = c.onto i ∧ b.chain = c.onto j
  printed : ∃ new, (a.sinks.get i).printed = new ++ P ∧ (b.sinks.get j).printed = new ++ Q
  room : (b.sinks.get j).room = (a.sinks.get i).room
  checks : b.checks = a.checks
  steps : b.steps = a.steps

/-- The second run prints to another sink. -/
def elsewhere (i j : Nat) (P Q : List Int64) : Coupling where
  machines := Elsewhere i j P Q
  frames f g := ∃ h : Frame, f = h.onto i ∧ g = h.onto j
  names _ := Eq
  trees := Eq
  halts := Eq
  cut _ := False

variable {i j : Nat} {P Q : List Int64}

/-- The scopes change alike, and nothing else does. -/
theorem Elsewhere.withChain {d e : Nat} {a b : Machine} (h : Elsewhere i j P Q d a b) {c : Chain}
    (hc : c.length = e + 1) :
    Elsewhere i j P Q e { a with chain := c.onto i } { b with chain := c.onto j } :=
  { h with scope := ⟨c, hc, rfl, rfl⟩ }

theorem Elsewhere.sinks {d : Nat} {a b : Machine} (h : Elsewhere i j P Q d a b) :
    a.chain.sink = i ∧ b.chain.sink = j := by
  obtain ⟨c, hc, ha, hb⟩ := h.scope
  have hpos : 0 < c.length := by omega
  rw [ha, hb]
  exact ⟨Chain.sink_onto hpos, Chain.sink_onto hpos⟩

/-- A run in one frame does the same with another sink: the line is added to both sinks, in front of
what differs. -/
theorem simulation_elsewhere (o : Options) : Simulation (elsewhere i j P Q) o o where
  trees := by
    rintro t _ rfl
    exact .refl t
  outOfFuel := rfl
  missingTree := rfl
  duplicate := by
    rintro x _ rfl
    rfl
  step := by
    intro d
    apply agrees_step 0
    · exact Option.map_id_apply.symm
    · exact fun _ => rfl
    · exact fun hab => ⟨hab.steps, fun _ => { hab with steps := rfl }⟩
  check := by
    intro d
    apply agrees_check rfl
    exact fun hab => ⟨hab.checks, fun _ => { hab with checks := rfl }⟩
  lookup := by
    rintro d x _ rfl
    refine agrees_lookup rfl fun hab => ?_
    obtain ⟨c, -, ha, hb⟩ := hab.scope
    rw [ha, hb, Chain.lookup?_onto, Chain.lookup?_onto]
  lookupFunc := by
    rintro d f _ rfl
    refine agrees_lookupFunc rfl fun hab => ?_
    obtain ⟨c, -, ha, hb⟩ := hab.scope
    rw [ha, hb, Chain.lookupFunc?_onto, Chain.lookupFunc?_onto]
    exact rel_refl Function.Alike.refl _
  declare := by
    rintro d x _ v rfl
    refine agrees_declare v rfl fun hab => ?_
    obtain ⟨c, hc, ha, hb⟩ := hab.scope
    rw [ha, hb, Chain.declare?_onto, Chain.declare?_onto]
    -- no frame is added to the scope, or taken from it
    cases hx : c.declare? x v with
    | none => exact .none
    | some c' => exact .some (hab.withChain ((Chain.Disciplined.declare? hx).length_eq.trans hc))
  assign := by
    rintro d x _ v rfl
    refine agrees_assign v rfl fun hab => ?_
    obtain ⟨c, hc, ha, hb⟩ := hab.scope
    rw [ha, hb, Chain.assign?_onto, Chain.assign?_onto]
    cases hx : c.assign? x v with
    | none => exact .none
    | some c' =>
      exact .some (hab.withChain ((Chain.SameNames.assign? hx).disciplined.length_eq.trans hc))
  define := by
    rintro d f _ F G rfl hF a b hab
    cases hF.eq
    obtain ⟨c, hc, ha, hb⟩ := hab.scope
    unfold define
    rw [ha, hb, Chain.defineFunc_onto, Chain.defineFunc_onto]
    exact .ok rfl (hab.withChain ((Chain.Disciplined.defineFunc c f F).length_eq.trans hc))
  print := by
    refine fun d v => agrees_print v rfl fun {a b} hab => ?_
    obtain ⟨new, hnew, hnew'⟩ := hab.printed
    rw [hab.sinks.1, hab.sinks.2]
    -- the line is added to both sinks, in front of what differs
    refine rel_imp (Sink.print?_alike hab.room v) fun _ h =>
      { hab with printed := ⟨v :: new, ?_, ?_⟩, room := ?_ }
    · rw [Sinks.get_set, if_pos rfl, h.1, hnew, List.cons_append]
    · rw [Sinks.get_set, if_pos rfl, h.2.1, hnew', List.cons_append]
    · rw [Sinks.get_set, Sinks.get_set, if_pos rfl, if_pos rfl, h.2.2]
  child := by
    intro d a b hab
    refine ⟨{}, ?_, ?_⟩
    · rw [Chain.child, hab.sinks.1]
      rfl
    · rw [Chain.child, hab.sinks.2]
      rfl
  bind := by
    rintro _ _ x _ v ⟨f, rfl, rfl⟩ rfl
    have hf : ∀ sink, (f.onto sink).declare? x v = (f.declare? x v).map (Frame.onto sink) :=
      fun sink => (frameMap_onto sink).declareVar? f x v
    rw [hf, hf]
    exact rel_map_map (rel_refl Eq.refl _) fun {g _} h => ⟨g, rfl, h ▸ rfl⟩
  enter := by
    rintro d a b _ _ hab ⟨f, rfl, rfl⟩
    obtain ⟨c, hc, ha, hb⟩ := hab.scope
    refine { hab with scope := ⟨f :: c, congrArg (· + 1) hc, ?_, ?_⟩ }
    · exact congrArg (f.onto i :: ·) ha
    · exact congrArg (f.onto j :: ·) hb
  leave := by
    intro d a b hab
    obtain ⟨c, hc, ha, hb⟩ := hab.scope
    cases c with
    | nil => cases hc
    | cons f up =>
      refine { hab with scope := ⟨up, Nat.succ.inj hc, ?_, ?_⟩ }
      · exact congrArg List.tail ha
      · exact congrArg List.tail hb
  enterBody := by
    rintro d a b f _ n hab rfl
    exact { hab with }
  leaveBody := by
    intro d a b hab
    exact { hab with }
  printed h := h.elim

end Eval

/-! ## Trees at the top level and in a sequence -/

/-- The machine in a fresh root with a sink. -/
def Machine.atRoot (m : Machine) (sink : Nat) : Machine := { m with chain := [{ sink := sink }] }

/-- Two runs in fresh roots, the first one with the sink `i` of a machine, the second one with the
sink `j` of another. They end with the same value or the same error, but that a limit is greater by
so many in the second one. What they have printed is the same, after what was in the sinks. The
second root is left without variables and functions. -/
structure SameAtRoot (more : Nat) (m : Machine) (i : Nat) (m' : Machine) (j : Nat)
    (r r' : EStateM.Result Halt Machine Int64) : Prop where
  outcome : outcomeOf r' = (outcomeOf r).mapError (Halt.raised more)
  output : ∃ new, outputOf r i = (m.sinks.get i).text ++ new ∧
    outputOf r' j = (m'.sinks.get j).text ++ new
  root : (Eval.final r').chain = [{ sink := j }]

namespace Eval

/-- Trees none of which is missing run like the trees of a sequence. -/
theorem all_some (o : Options) (fuel : Nat) (xs : List Tree) :
    all o fuel (xs.map some) = inOrder (tree o fuel) xs 0 := by
  have h : ∀ last, inOrder (present (tree o fuel)) (xs.map some) last =
      inOrder (tree o fuel) xs last := by
    induction xs with
    | nil => exact fun _ => rfl
    | cons x xs ih => exact fun _ => bind_congr fun v => ih v
  exact h 0

variable {i j : Nat}

/-- Trees in roots with different sinks. -/
theorem all_elsewhere (o : Options) (fuel : Nat) (ts : List (Option Tree)) {P Q : List Int64}
    {a b : Machine} (h : Elsewhere i j P Q 0 a b) :
    outcomeOf (all o fuel ts b) = outcomeOf (all o fuel ts a) ∧
      Elsewhere i j P Q 0 (final (all o fuel ts a)) (final (all o fuel ts b)) := by
  have hsim : Simulation (elsewhere i j P Q) o o := simulation_elsewhere o
  have hagree := (hsim.all (Or.inl (Eq.refl fuel)) 0 (Tree.forall₂_rel_eq ts)).agrees h
  exact hagree.uncut (fun _ h => h) fun h => h

/-- A sequence in a fresh root: its trees run in a frame with an empty one above it. -/
theorem tree_seq_atRoot (o : Options) (fuel : Nat) (xs : List Tree) {m : Machine} {more : Nat}
    (hm : m.chain = [{ sink := j }]) (hstep : step (o.raised more) m = .ok () (m.later more)) :
    tree (o.raised more) (fuel + 1) (.seq xs) m =
      mapResult (Halt.raised more) (fun a => leave ((a.padded 1 j).later more))
        (all o fuel (xs.map some) m) := by
  have hseq : tree (o.raised more) (fuel + 1) (.seq xs) m =
      inFrame m.chain.child (all (o.raised more) fuel (xs.map some)) (m.later more) := by
    rw [all_some]
    exact bind_ok hstep
  have henter : enter m.chain.child (m.later more) = (m.padded 1 j).later more := by
    unfold enter Machine.later Machine.padded
    rw [hm]
    rfl
  rw [hseq, inFrame_eq, around, henter, all_padded o fuel (xs.map some) m 0 j more]
  cases all o fuel (xs.map some) m <;> rfl

end Eval

theorem outcomeOf_mapResult (g : Halt → Halt) (f : Machine → Machine)
    (r : EStateM.Result Halt Machine Int64) :
    outcomeOf (Eval.mapResult g f r) = (outcomeOf r).mapError g := by
  cases r <;> rfl

section

variable (o : Options) (xs : List Tree) {m m' : Machine} {i j : Nat}

/-- A list of trees and their sequence with one more fuel, if the sequence itself is counted as so
many trees. -/
theorem sameAtRoot_seq (fuel : Nat) (hroom : (m'.sinks.get j).room = (m.sinks.get i).room)
    (hchecks : m'.checks = m.checks) {more : Nat}
    (hstep : ∀ m : Machine, m.steps = 0 → Eval.step (o.raised more) m = .ok () (m.later more)) :
    SameAtRoot more m i m' j (Eval.all o fuel (xs.map some) (m.atRoot i).restarted)
      (Eval.tree (o.raised more) (fuel + 1) (.seq xs) (m'.atRoot j).restarted) := by
  have hstart : Eval.Elsewhere i j (m.sinks.get i).printed (m'.sinks.get j).printed 0
      (m.atRoot i).restarted (m'.atRoot j).restarted :=
    ⟨⟨[{}], rfl, rfl, rfl⟩, ⟨[], rfl, rfl⟩, hroom, hchecks, rfl⟩
  -- the trees first run in the root with the other sink, and then below it
  obtain ⟨houtcome, hend⟩ := Eval.all_elsewhere o fuel (xs.map some) hstart
  obtain ⟨new, hnew, hnew'⟩ := hend.printed
  rw [Eval.tree_seq_atRoot o fuel xs rfl (hstep _ rfl)]
  refine ⟨?_, ⟨new.reverse.flatMap Sink.line, Sink.text_of_printed hnew, ?_⟩, ?_⟩
  · rw [outcomeOf_mapResult, houtcome]
  · rw [outputOf, Eval.final_mapResult]
    exact Sink.text_of_printed hnew'
  · rw [Eval.final_mapResult]
    obtain ⟨c, hc, -, hb⟩ := hend.scope
    obtain ⟨f, rfl⟩ := List.length_eq_one_iff.1 hc
    unfold Eval.leave Machine.later Machine.padded
    rw [hb]
    rfl

/-- Under a limit, the sequence counts one tree more than the trees in it. -/
theorem sameAtRoot_limited (fuel n : Nat)
    (hroom : (m'.sinks.get j).room = (m.sinks.get i).room) (hchecks : m'.checks = m.checks) :
    SameAtRoot 1 m i m' j (Eval.all (o.limited n) fuel (xs.map some) (m.atRoot i).restarted)
      (Eval.all (o.limited (n + 1)) (fuel + 1) [some (.seq xs)] (m'.atRoot j).restarted) := by
  have hstep : ∀ a : Machine, a.steps = 0 →
      Eval.step ((o.limited n).raised 1) a = .ok () (a.later 1) := by
    intro a ha
    have hn : ¬ n + 1 < a.steps + 1 := by omega
    exact if_neg hn
  rw [Eval.all_single]
  exact sameAtRoot_seq (o.limited n) xs fuel hroom hchecks hstep

/-- Without a limit, the sequence ends as the trees in it do. -/
theorem sameAtRoot_unlimited (fuel : Nat)
    (hroom : (m'.sinks.get j).room = (m.sinks.get i).room) (hchecks : m'.checks = m.checks) :
    SameAtRoot 0 m i m' j (Eval.all o.unlimited fuel (xs.map some) (m.atRoot i).restarted)
      (Eval.all o.unlimited (fuel + 1) [some (.seq xs)] (m'.atRoot j).restarted) := by
  rw [Eval.all_single]
  exact sameAtRoot_seq o.unlimited xs fuel hroom hchecks fun _ _ => rfl

end

/-- A run that is not out of fuel, by its outcome. -/
theorem Halted.outcome_ne {r : EStateM.Result Halt Machine Int64} (h : Halted r) :
    outcomeOf r ≠ .error .outOfFuel := by
  rcases r with ⟨v, a⟩ | ⟨e | _, a⟩
  · exact fun h' => by cases h'
  · exact fun h' => by cases h'
  · rcases h with h | ⟨e, h⟩
    · cases h
    · cases h

/-- Trees at the top level run as their sequence does, in fresh roots with sinks that take as many
more lines, and with the same checks. Under a limit the sequence counts as one more tree, so its
limit is greater by one. Without a limit the runs are the same whenever the run of the sequence
ends, and with any fuel that is one more for the sequence. More generally, an empty frame anywhere
above the current one makes no difference to a run of trees and stays empty. -/
theorem evalAll_seq_alike (o : Options) (xs : List Tree) (m m' : Machine) (i j : Nat)
    (hroom : (m'.sinks.get j).room = (m.sinks.get i).room) (hchecks : m'.checks = m.checks) :
    (∀ n, SameAtRoot 1 m i m' j (evalAll (o.limited n) (xs.map some) (m.atRoot i))
      (evalAll (o.limited (n + 1)) [some (.seq xs)] (m'.atRoot j))) ∧
    (Halted (evalAll o.unlimited [some (.seq xs)] (m'.atRoot j)) →
      SameAtRoot 0 m i m' j (evalAll o.unlimited (xs.map some) (m.atRoot i))
        (evalAll o.unlimited [some (.seq xs)] (m'.atRoot j))) ∧
    (∀ fuel, SameAtRoot 0 m i m' j
      (Eval.all o.unlimited fuel (xs.map some) (m.atRoot i).restarted)
      (Eval.all o.unlimited (fuel + 1) [some (.seq xs)] (m'.atRoot j).restarted)) ∧
    ∀ (ts : List (Option Tree)) (a : Machine) (below sink : Nat),
      Eval.FrameUnseen (evalAll o ts) a below sink ∧
        ∀ fuel, Eval.FrameUnseen (Eval.all o fuel ts) a below sink := by
  refine ⟨fun n => sameAtRoot_limited o xs (n + 1) n hroom hchecks, fun h => ?_,
    fun fuel => sameAtRoot_unlimited o xs fuel hroom hchecks, ?_⟩
  · obtain ⟨k, hk⟩ : ∃ k, o.unlimited.fuel = k + 1 := ⟨9223372036854775806, rfl⟩
    have hsame := sameAtRoot_unlimited o xs k hroom hchecks
    -- one less fuel is enough for the trees, since it is for the sequence
    have hends : ∀ a, Eval.all o.unlimited k (xs.map some) (m.atRoot i).restarted ≠
        .error .outOfFuel a := by
      intro a ha
      apply h.outcome_ne
      have houtcome := hsame.outcome
      rw [ha] at houtcome
      unfold evalAll
      rw [hk]
      exact houtcome
    have hmore := Eval.all_more_fuel o.unlimited (Nat.le_succ k) (xs.map some)
      (m.atRoot i).restarted hends
    rw [← hmore] at hsame
    unfold evalAll
    rw [hk]
    exact hsame
  · intro ts a below sink
    constructor
    · exact Eval.evalAll_frameUnseen o ts a below sink
    · exact fun fuel => Eval.all_frameUnseen o fuel ts a below sink

/-- A variable is declared, printed, and declared again. At the top level this fails at the limit
four with one line printed, and as a sequence, to a sink with a line in it, at the limit five. -/
theorem evalAll_seq_alike_declarations :
    let xs : List Tree := [.declare (utf8 "x") (.literal 2), .print (.var (utf8 "x")),
      .declare (utf8 "x") (.literal 3)]
    let other : Machine := { chain := [], sinks := [(3, { printed := [9] })] }
    let r := evalAll (Options.limited {} 4) (xs.map some) (Machine.atRoot { chain := [] } 0)
    let r' := evalAll (Options.limited {} 5) [some (.seq xs)] (other.atRoot 3)
    (other.sinks.get 3).room = none ∧ other.checks = none ∧
      haltOf r = some (.error (.stepLimit 4)) ∧ haltOf r' = some (.error (.stepLimit 5)) ∧
      outputOf r 0 = utf8 "2\n" ∧ outputOf r' 3 = utf8 "9\n2\n" ∧
      SameAtRoot 1 { chain := [] } 0 other 3 r r' := by
  intro xs other r r'
  have hseq := evalAll_seq_alike {} xs { chain := [] } other 0 3 (by decide) rfl
  refine ⟨by decide, rfl, ?_, ?_, ?_, ?_, hseq.1 4⟩
  · decide +kernel
  · decide +kernel
  · decide +kernel
  · decide +kernel

end TreeLang
