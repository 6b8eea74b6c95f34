import TreeLang.Proofs.Eval.Sinks
import TreeLang.Proofs.Eval.StepLimit
import TreeLang.Proofs.Tree.Size

/-!
# Trees that leave nothing behind

A tree that does not assign, define or call can only declare variables and print. If its
declarations stand inside its own sequences, they go to frames that were entered for these sequences
and are gone when the tree ends. So such a tree leaves every frame as it was, whether it has a value
or is halted in the midst of nested sequences (`Eval.moves_fleeting`).

What was printed before makes no difference to a run, as long as the sinks have room for as many
lines (`Eval.all_abreast`). So a tree of this kind can be evaluated again, and then ends as it did
and prints what it printed (`evalAll_repeatable`).
-/

set_option autoImplicit false

namespace TreeLang

/-! ## Trees -/

namespace Tree

/-- The second tree stands within the first one, inside the trees of the list, the outermost
first. -/
inductive Within : Tree → List Tree → Tree → Prop
  | here (t : Tree) : Within t [] t
  | inside {t u w : Tree} {around : List Tree} :
      u ∈ t.children → Within u around w → Within t (t :: around) w

/-- No tree within assigns, defines or calls, and what declares stands inside a sequence. -/
def Fleeting (t : Tree) : Prop :=
  ∀ around u, t.Within around u → (u.kind ≠ .assign ∧ u.kind ≠ .define ∧ u.kind ≠ .call) ∧
    (u.kind = .declare → ∃ s ∈ around, s.kind = .seq)

mutual

/-- Whether a tree is fleeting, for a tree that may itself stand inside a sequence. -/
def isFleeting (inSeq : Bool) : Tree → Bool
  | .none | .literal _ | .var _ => true
  | .binary _ a b => a.isFleeting inSeq && b.isFleeting inSeq
  -- what the trees of a sequence declare goes to the frame of the sequence
  | .seq ts => areFleeting ts
  | .cond c a b => c.isFleeting inSeq && a.isFleeting inSeq && b.isFleeting inSeq
  | .loop c b => c.isFleeting inSeq && b.isFleeting inSeq
  | .declare _ e => inSeq && e.isFleeting inSeq
  | .print e => e.isFleeting inSeq
  | .assign .. | .define .. | .call .. => false

/-- Whether the trees of a sequence are fleeting. -/
def areFleeting : List Tree → Bool
  | [] => true
  | t :: ts => t.isFleeting true && areFleeting ts

end

/-- The trees of a sequence are fleeting if each of them is, inside a sequence. -/
theorem areFleeting_iff (ts : List Tree) : areFleeting ts ↔ ∀ t ∈ ts, t.isFleeting true := by
  induction ts with
  | nil => simp [areFleeting]
  | cons t ts ih => simp [areFleeting, ih]

/-- A tree is fleeting if it may stand where it stands and the trees inside it are fleeting
there. -/
theorem isFleeting_iff_children (inSeq : Bool) (t : Tree) :
    t.isFleeting inSeq ↔
      ((t.kind ≠ .assign ∧ t.kind ≠ .define ∧ t.kind ≠ .call) ∧ (t.kind = .declare → inSeq)) ∧
        ∀ u ∈ t.children, u.isFleeting (inSeq || decide (t.kind = .seq)) := by
  cases t <;> simp [isFleeting, areFleeting_iff, kind, children, and_assoc]

/-- The check looks at every tree that stands within a tree. The tree stands within itself, and all
else stands within one of the trees directly inside. -/
theorem isFleeting_iff (t : Tree) : ∀ inSeq : Bool, t.isFleeting inSeq ↔
    ∀ around u, t.Within around u → (u.kind ≠ .assign ∧ u.kind ≠ .define ∧ u.kind ≠ .call) ∧
      (u.kind = .declare → inSeq ∨ ∃ s ∈ around, s.kind = .seq) := by
  induction t using induct_children with
  | h t ih =>
    intro inSeq
    rw [isFleeting_iff_children]
    constructor
    · rintro ⟨hself, hinside⟩ around u hu
      cases hu with
      | here => exact ⟨hself.1, fun h => Or.inl (hself.2 h)⟩
      | @inside _ c _ around hc hu =>
        obtain ⟨hkind, hdeclare⟩ := (ih c hc _).1 (hinside c hc) around u hu
        refine ⟨hkind, fun h => ?_⟩
        rcases hdeclare h with hseq | ⟨s, hs, hseq⟩
        · rcases Bool.or_eq_true_iff.1 hseq with hseq | hseq
          · exact Or.inl hseq
          · exact Or.inr ⟨t, List.mem_cons_self, of_decide_eq_true hseq⟩
        · exact Or.inr ⟨s, List.mem_cons_of_mem t hs, hseq⟩
    · intro h
      have hself := h [] t (.here t)
      refine ⟨⟨hself.1, fun hdeclare => ?_⟩, fun c hc => (ih c hc _).2 fun around u hu => ?_⟩
      · simpa using hself.2 hdeclare
      · obtain ⟨hkind, hdeclare⟩ := h (t :: around) u (.inside hc hu)
        refine ⟨hkind, fun hu => ?_⟩
        rcases hdeclare hu with hseq | ⟨s, hs, hseq⟩
        · exact Or.inl (by rw [hseq, Bool.true_or])
        · rcases List.mem_cons.1 hs with rfl | hs
          · exact Or.inl (by rw [decide_eq_true hseq, Bool.or_true])
          · exact Or.inr ⟨s, hs, hseq⟩

/-- The check decides whether a tree is fleeting. -/
theorem fleeting_iff (t : Tree) : t.isFleeting false ↔ t.Fleeting := by
  rw [isFleeting_iff, Fleeting]
  simp

instance : DecidablePred Fleeting := fun t => decidable_of_iff _ t.fleeting_iff

end Tree

/-! ## Frames -/

/-- A declaration changes the current frame only. -/
theorem Chain.drop_one_declare? {c d : Chain} {x : Text} {v : Int64} (h : c.declare? x v = some d) :
    d.drop 1 = c.drop 1 := by
  cases c with
  | nil => cases h
  | cons f up =>
    obtain ⟨g, -, rfl⟩ := Option.map_eq_some_iff.1 h
    rfl

namespace Eval

/-- The frames are the same but for so many that come first. -/
def KeepsAbove (own : Nat) (a b : Machine) : Prop := b.chain.drop own = a.chain.drop own

theorem check_chain (m : Machine) : (final (check m)).chain = m.chain := by
  unfold check
  split <;> rfl

theorem print_chain (v : Int64) (m : Machine) : (final (print v m)).chain = m.chain := by
  unfold print
  split <;> rfl

/-- Counting, asking and printing leave all frames as they were. -/
theorem steady_keepsAbove (own : Nat) : Steady (KeepsAbove own) where
  refl _ := rfl
  trans h k := k.trans h
  step o m := congrArg (List.drop own) (step_chain o m)
  check m := congrArg (List.drop own) (check_chain m)
  print v m := congrArg (List.drop own) (print_chain v m)

/-- A declaration changes the current frame only. -/
theorem declare_keepsAbove (x : Text) (v : Int64) : Moves (KeepsAbove 1) (declare x v) := by
  intro m
  unfold declare
  cases h : m.chain.declare? x v with
  | none => rfl
  | some c => exact Chain.drop_one_declare? h

/-- A frame that is entered and left again takes with it what was declared in it. -/
theorem inFrame_keepsAbove {α : Type} {x : Eval α} (hx : Moves (KeepsAbove 1) x) (f : Frame) (own : Nat) :
    Moves (KeepsAbove own) (inFrame f x) := by
  intro m
  rw [inFrame_eq, around_final]
  have hleft : (leave (final (x (enter f m)))).chain = m.chain := by
    rw [leave, ← List.drop_one]
    exact hx (enter f m)
  exact congrArg (List.drop own) hleft

/-- The rules for fleeting trees. The index says whether a tree stands in a sequence, whose frame
may change. -/
def fleeting (o : Options) : Plain Notes.blank o where
  Index := Bool
  Holds inSeq x _ := Moves (KeepsAbove inSeq.toNat) x
  MayRun inSeq t := ∀ u, t = some u → u.isFleeting inSeq
  inside _ := true
  pure a := (steady_keepsAbove _).pure a
  bind := (steady_keepsAbove _).bind
  duplicate _ _ := (steady_keepsAbove _).halt _
  print := (steady_keepsAbove _).print
  child hF m := hF m.chain.child trivial m
  inFrame _ hx := inFrame_keepsAbove hx _ _
  inBody hx m := by
    rw [inBody_eq, around_final]
    exact hx (enterBody o _ _ m)
  outOfFuel := (steady_keepsAbove _).halt .outOfFuel
  missing _ := (steady_keepsAbove _).halt _
  step _ := (steady_keepsAbove _).step o
  check := (steady_keepsAbove _).check
  lookup _ := (steady_keepsAbove _).lookup _
  lookupFunc ht := absurd (ht _ rfl) Bool.false_ne_true
  declare {inSeq x e} v ht := by
    obtain ⟨hseq, -⟩ := Bool.and_eq_true_iff.1 (ht _ rfl)
    subst hseq
    exact declare_keepsAbove x v
  assign _ ht := absurd (ht _ rfl) Bool.false_ne_true
  define ht := absurd (ht _ rfl) Bool.false_ne_true
  children {inSeq t u} ht hu := by
    have hinside := ((Tree.isFleeting_iff_children inSeq t).1 (ht t rfl)).2 u hu
    rintro _ ⟨⟩
    by_cases hseq : t.kind = .seq
    · simpa [hseq] using hinside
    · simpa [hseq] using hinside
  body ht := absurd (ht _ rfl) Bool.false_ne_true

/-- A fleeting tree leaves all frames as they were; inside a sequence the frame of the sequence may
change. -/
theorem moves_fleeting (o : Options) (fuel : Nat) {inSeq : Bool} {t : Tree}
    (ht : t.isFleeting inSeq) : Moves (KeepsAbove inSeq.toNat) (tree o fuel t) := by
  refine (fleeting o).logic.tree fuel inSeq t ?_
  rintro _ ⟨⟩
  exact ht

end Eval

/-! ## Output -/

namespace Sink

/-- Two sinks have taken the same values since they were `s` and `t`, and take as many more
lines. -/
structure GrownAlike (s t s' t' : Sink) : Prop where
  printed : ∃ new, s'.printed = new ++ s.printed ∧ t'.printed = new ++ t.printed
  room : t'.room = s'.room

variable {s t s' t' : Sink}

/-- Sinks that have grown alike take the next value both, or neither does. -/
theorem GrownAlike.print? (h : GrownAlike s t s' t') (v : Int64) :
    Option.Rel (GrownAlike s t) (s'.print? v) (t'.print? v) := by
  obtain ⟨new, hs, ht⟩ := h.printed
  have hprint := Sink.print?_alike h.room v
  generalize s'.print? v = a at hprint
  generalize t'.print? v = b at hprint
  cases hprint with
  | none => exact .none
  | some h =>
    refine .some ⟨⟨v :: new, ?_, ?_⟩, h.2.2⟩
    · rw [h.1, hs, List.cons_append]
    · rw [h.2.1, ht, List.cons_append]

/-- Sinks that have grown alike have got the same text in addition. -/
theorem GrownAlike.text (h : GrownAlike s t s' t') :
    ∃ out, s'.text = s.text ++ out ∧ t'.text = t.text ++ out := by
  obtain ⟨new, hs, ht⟩ := h.printed
  exact ⟨_, Sink.text_of_printed hs, Sink.text_of_printed ht⟩

end Sink

namespace Eval

/-- Machines that are the same but for their sinks and the calls that were recorded. Since the sinks
were `s` and `t`, the machines have printed the same. -/
def Abreast (s t : Sinks) (a b : Machine) : Prop :=
  ∃ sinks calls, b = { a with sinks := sinks, calls := calls } ∧
    ∀ k, (s.get k).GrownAlike (t.get k) (a.sinks.get k) (sinks.get k)

variable {s t : Sinks}

theorem sameScope_abreast : SameScope (Abreast s t) where
  chain := by
    rintro a _ ⟨sinks, calls, rfl, -⟩
    rfl
  withChain := by
    rintro a _ c ⟨sinks, calls, rfl, hs⟩
    exact ⟨sinks, calls, rfl, hs⟩

/-- Two runs of the same code that never part. -/
def abreast (s t : Sinks) : Coupling := sameCode (Abreast s t) (fun _ => False) .printed

theorem agrees_print_abreast (d : Nat) (v : Int64) :
    Agrees (abreast s t) d Eq (print v) (print v) := by
  apply agrees_print v rfl
  rintro a _ ⟨sinks, calls, rfl, hs⟩
  refine rel_imp ((hs a.chain.sink).print? v) fun _ h => ⟨_, calls, rfl, ?_⟩
  exact Sinks.forall_get_set (P := fun k => (s.get k).GrownAlike (t.get k)) hs h

/-- A run does the same whatever was printed before it. -/
theorem simulation_abreast (o : Options) : Simulation (abreast s t) o o := by
  apply simulation_sameCode sameScope_abreast
  · intro d
    apply agrees_step 0
    · exact Option.map_id_apply.symm
    · exact fun _ => rfl
    · rintro a _ ⟨sinks, calls, rfl, hs⟩
      exact ⟨rfl, fun _ => ⟨sinks, calls, rfl, hs⟩⟩
  · intro d
    apply agrees_check rfl
    rintro a _ ⟨sinks, calls, rfl, hs⟩
    exact ⟨rfl, fun _ => ⟨sinks, calls, rfl, hs⟩⟩
  · exact agrees_print_abreast
  · rintro a _ f n ⟨sinks, calls, rfl, hs⟩
    exact ⟨sinks, _, rfl, hs⟩
  · rintro a _ ⟨sinks, calls, rfl, hs⟩
    exact ⟨sinks, calls, rfl, hs⟩
  · rintro ⟨⟩

/-- Runs of the same trees end alike and print the same, whatever was printed and recorded
before. -/
theorem all_abreast (o : Options) (fuel : Nat) (ts : List (Option Tree)) {a b : Machine}
    (h : Abreast s t a b) :
    outcomeOf (all o fuel ts b) = outcomeOf (all o fuel ts a) ∧
      Abreast s t (final (all o fuel ts a)) (final (all o fuel ts b)) := by
  have hagree :=
    ((simulation_abreast o).all (Or.inl (Eq.refl fuel)) 0 (Tree.forall₂_rel_eq ts)).agrees h
  exact hagree.uncut (fun _ h => h) fun h => h

end Eval

/-! ## Runs that can be repeated -/

/-- The machine that a run leaves behind, allowed to go on as often as before the run. -/
def Machine.onceMore (m : Machine) (run : Machine → EStateM.Result Halt Machine Int64) : Machine :=
  { Eval.final (run m) with checks := m.checks }

/-- A run from a machine leaves nothing behind but its output, and another run after it does what
the first one did. -/
structure Repeatable (m : Machine) (run : Machine → EStateM.Result Halt Machine Int64) : Prop where
  /-- Neither run changes a frame. -/
  chain : (Eval.final (run m)).chain = m.chain ∧
    (Eval.final (run (m.onceMore run))).chain = m.chain
  /-- Both runs have the same value, or are halted for the same reason. -/
  outcome : outcomeOf (run (m.onceMore run)) = outcomeOf (run m)
  /-- Both runs print the same, each after what was printed before it. -/
  output : ∃ out, outputOf (run m) m.chain.sink = (m.sinks.get m.chain.sink).text ++ out ∧
    outputOf (run (m.onceMore run)) m.chain.sink = outputOf (run m) m.chain.sink ++ out
  /-- Neither run prints to a sink other than that of its frame. -/
  elsewhere : ∀ k, k ≠ m.chain.sink → (Eval.final (run m)).sinks.get k = m.sinks.get k ∧
    (Eval.final (run (m.onceMore run))).sinks.get k = m.sinks.get k

section

variable (o : Options) (fuel : Nat) {t : Tree}

/-- A fleeting tree leaves the scope as it was. -/
theorem Eval.all_fleeting_chain (ht : t.Fleeting) (m : Machine) :
    (final (all o fuel [some t] m)).chain = m.chain := by
  rw [all_single]
  exact moves_fleeting o fuel (t.fleeting_iff.2 ht) m

/-- A sink with no end of room has as much room after a run. -/
theorem Eval.all_room (ts : List (Option Tree)) {m : Machine}
    (hroom : (m.sinks.get m.chain.sink).room = none) (k : Nat) :
    ((final (all o fuel ts m)).sinks.get k).room = (m.sinks.get k).room := by
  obtain ⟨helsewhere, vs, htakes⟩ := (all_prints o fuel ts m).1
  by_cases hk : k = m.chain.sink
  · have h := htakes.room
    rw [hroom] at h
    rw [hk, hroom]
    exact Option.map_eq_none_iff.1 h.symm
  · rw [helsewhere k hk]

/-- A fleeting tree can be run again, if its sink has room for all. -/
theorem all_repeatable (ht : t.Fleeting) {m : Machine}
    (hroom : (m.sinks.get m.chain.sink).room = none) :
    Repeatable m fun m => Eval.all o fuel [some t] m.restarted := by
  have hchain := Eval.all_fleeting_chain o fuel ht
  have hprints := fun m => (Eval.all_prints o fuel [some t] m).1
  let run := fun m : Machine => Eval.all o fuel [some t] m.restarted
  -- the second run starts as the first one did, but for what was printed
  have hstart : Eval.Abreast m.sinks (Eval.final (run m)).sinks m.restarted
      (m.onceMore run).restarted := by
    refine ⟨(Eval.final (run m)).sinks, (Eval.final (run m)).calls, ?_, fun k => ⟨⟨[], rfl, rfl⟩, ?_⟩⟩
    · unfold Machine.restarted Machine.onceMore
      rw [hchain m.restarted]
      rfl
    · exact Eval.all_room o fuel [some t] (m := m.restarted) hroom k
  obtain ⟨houtcome, sinks, calls, hend, hgrown⟩ := Eval.all_abreast o fuel [some t] hstart
  have hagain : (m.onceMore run).restarted.chain = m.chain := hchain m.restarted
  refine ⟨⟨hchain m.restarted, (hchain _).trans hagain⟩, houtcome, ?_, fun k hk => ?_⟩
  · obtain ⟨out, hfirst, hsecond⟩ := (hgrown m.chain.sink).text
    refine ⟨out, hfirst, ?_⟩
    unfold outputOf
    rw [hend]
    exact hsecond
  · have hfirst := (hprints m.restarted).elsewhere k hk
    have hsecond := (hprints (m.onceMore run).restarted).elsewhere k (hagain.symm ▸ hk)
    exact ⟨hfirst, hsecond.trans hfirst⟩

end

/-- A tree that does not assign, define or call, and that declares only inside its sequences, can be
evaluated again in any scope with a sink that takes every line. However its evaluation ends, with a
value or halted in the midst of it, it leaves all frames as they were; another evaluation ends as
the first one did and prints the same once more. This holds under any limit and with any checks, and
it holds of the run with any fuel. -/
theorem evalAll_repeatable (o : Options) (t : Tree) (ht : t.Fleeting) (m : Machine)
    (hroom : (m.sinks.get m.chain.sink).room = none) :
    Repeatable m (evalAll o [some t]) ∧
      ∀ fuel, Repeatable m fun m => Eval.all o fuel [some t] m.restarted :=
  ⟨all_repeatable o o.fuel ht hroom, fun fuel => all_repeatable o fuel ht hroom⟩

/-- The loop ends after a turn, since what its body declares hides the variable outside; then the
sequence fails at its second declaration. The variable outside is as it was, and the evaluation
fails the same way again. -/
theorem evalAll_repeatable_hidden :
    let x := utf8 "x"
    let t : Tree := .seq [.print (.var x), .loop (.binary .gt (.var x) (.literal 0))
      (.declare x (.literal 0)), .print (.var x), .declare x (.literal 3)]
    let m : Machine := { chain := [{ vars := [(x, 7)] }], sinks := [(0, { printed := [9] })] }
    let o := Options.limited {} 20
    t.Fleeting ∧ (m.sinks.get m.chain.sink).room = none ∧
      outcomeOf (evalAll o [some t] m) = .error (.error (.duplicate x)) ∧
      outputOf (evalAll o [some t] m) 0 = utf8 "9\n7\n0\n" ∧
      outputOf (evalAll o [some t] (m.onceMore (evalAll o [some t]))) 0 = utf8 "9\n7\n0\n7\n0\n" ∧
      Repeatable m (evalAll o [some t]) := by
  intro x t m o
  have ht : t.Fleeting := by decide
  refine ⟨ht, rfl, ?_, ?_, ?_, (evalAll_repeatable o t ht m rfl).1⟩
  · decide +kernel
  · decide +kernel
  · decide +kernel

end TreeLang
