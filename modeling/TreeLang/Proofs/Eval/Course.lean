import TreeLang.Proofs.Eval.Logic

/-!
# What a run does to the machine

A run changes the machine in few ways: it counts a tree, asks whether it may go on, declares or
assigns a variable, defines a function, prints, enters and leaves frames and function bodies. A
relation between machines that each of these respects holds between the machine before a run and
the one after it, whatever the tree and the fuel, and whether the run has a value or is halted
(`Course.tree`, `Course.all`).

Frames that a run enters have the sink of the frame they are entered from, so a relation need only
respect the entry of such frames.
-/

set_option autoImplicit false

namespace TreeLang

namespace Eval

variable {α β : Type} {R : Machine → Machine → Prop}

/-- A run relates the machine before it to the machine after it. -/
def Moves (R : Machine → Machine → Prop) (x : Eval α) : Prop := ∀ m, R m (final (x m))

/-- A relation that holds where nothing is done, and that counting, asking and printing respect. -/
structure Steady (R : Machine → Machine → Prop) : Prop where
  refl : ∀ m, R m m
  trans : ∀ {a b c}, R a b → R b c → R a c
  step : ∀ o, Moves R (step o)
  check : Moves R check
  print : ∀ v, Moves R (print v)

namespace Steady

theorem pure (S : Steady R) (a : α) : Moves R (Pure.pure a : Eval α) := fun m => S.refl m

theorem halt (S : Steady R) (h : Halt) : Moves R (throw h : Eval α) := fun m => S.refl m

/-- From one machine, two runs one after the other. -/
theorem bind_at (S : Steady R) {x : Eval α} {f : α → Eval β} {m : Machine} (hx : R m (final (x m)))
    (hf : ∀ a m', x m = .ok a m' → R m' (final (f a m'))) : R m (final ((x >>= f) m)) := by
  cases hr : x m with
  | ok a m' =>
    rw [hr] at hx
    rw [bind_ok hr]
    exact S.trans hx (hf a m' hr)
  | error e m' =>
    rw [hr] at hx
    rw [bind_error hr]
    exact hx

/-- Two runs one after the other respect what each of them respects. -/
theorem bind (S : Steady R) {x : Eval α} {f : α → Eval β} (hx : Moves R x)
    (hf : ∀ a, Moves R (f a)) : Moves R (x >>= f) :=
  fun m => S.bind_at (hx m) fun a m' _ => hf a m'

/-- Reading a variable changes nothing. -/
theorem lookup (S : Steady R) (x : Text) : Moves R (lookup x) := by
  intro m
  unfold Eval.lookup
  cases m.chain.lookup? x <;> exact S.refl m

/-- Finding a function changes nothing. -/
theorem lookupFunc (S : Steady R) (x : Text) : Moves R (lookupFunc x) := by
  intro m
  unfold Eval.lookupFunc
  cases m.chain.lookupFunc? x <;> exact S.refl m

end Steady

/-- A relation that everything a run does respects. -/
structure Course (R : Machine → Machine → Prop) : Prop extends Steady R where
  sink : ∀ {a b}, R a b → b.chain.sink = a.chain.sink
  declare : ∀ x v, Moves R (declare x v)
  assign : ∀ x v, Moves R (assign x v)
  define : ∀ x f, Moves R (define x f)
  frame : ∀ {a b} f, f.sink = a.chain.sink → R (enter f a) b → R a (leave b)
  body : ∀ {a b} o func args, R (enterBody o func args a) b → R a (leaveBody b)

/-- A frame that binds one more variable has the sink it had. -/
theorem declare?_sink {f f' : Frame} {x : Text} {v : Int64} (h : f.declare? x v = some f') :
    f'.sink = f.sink := by
  unfold Frame.declare? at h
  split at h
  · cases h
  · cases h
    rfl

/-- From machines with the given sink, a run relates the machine before it to the one after it. -/
def MovesFrom (R : Machine → Machine → Prop) (sink : Nat) (x : Eval α) : Prop :=
  ∀ m, m.chain.sink = sink → R m (final (x m))

namespace Course

/-- The second run starts with the sink that the first one started with. -/
theorem bind_from (C : Course R) {sink : Nat} {x : Eval α} {f : α → Eval β}
    (hx : MovesFrom R sink x) (hf : ∀ a, MovesFrom R sink (f a)) : MovesFrom R sink (x >>= f) := by
  intro m hm
  have h := hx m hm
  refine C.bind_at h fun a m' hr => hf a m' ?_
  rw [hr] at h
  exact (C.sink h).trans hm

/-- The rules for a relation that everything respects: all frames have the sink at the start. -/
def plain (C : Course R) (o : Options) (sink : Nat) : Plain Notes.blank o where
  Holds _ x _ := MovesFrom R sink x
  MayEnter f := f.sink = sink
  pure a m _ := C.pure a m
  bind := C.bind_from
  duplicate _ _ m _ := C.refl m
  print v m _ := C.print v m
  child hF m hm := hF m.chain.child hm m hm
  bound hf hd := (declare?_sink hd).trans hf
  inFrame hf hx m hm := by
    rw [inFrame_eq, around_final]
    exact C.frame _ (hf.trans hm.symm) (hx (enter _ m) hf)
  inBody hx m hm := by
    rw [inBody_eq, around_final]
    exact C.body o _ _ (hx (enterBody o _ _ m) hm)
  outOfFuel m _ := C.refl m
  missing _ m _ := C.refl m
  step _ m _ := C.step o m
  check m _ := C.check m
  lookup _ m _ := C.lookup _ m
  lookupFunc _ hF := C.bind_from (fun m _ => C.lookupFunc _ m) fun g => hF g trivial
  declare v _ m _ := C.declare _ v m
  assign v _ m _ := C.assign _ v m
  define _ m _ := C.define _ _ m

/-- The run of a tree respects what everything in it respects. -/
theorem tree (C : Course R) (o : Options) (fuel : Nat) (t : Tree) : Moves R (tree o fuel t) :=
  fun m => (C.plain o m.chain.sink).logic.tree fuel () t trivial m rfl

/-- The run of the trees of a sequence, inside its frame. -/
theorem trees (C : Course R) (o : Options) (fuel : Nat) (ts : List Tree) :
    Moves R (inOrder (Eval.tree o fuel) ts 0) := by
  intro m
  exact (C.plain o m.chain.sink).logic.inOrder (i := ())
    (fun t _ => (C.plain o m.chain.sink).logic.tree fuel () t trivial) 0 m rfl

/-- The run of trees one after the other respects what everything in it respects. -/
theorem all (C : Course R) (o : Options) (fuel : Nat) (ts : List (Option Tree)) :
    Moves R (all o fuel ts) :=
  fun m => (C.plain o m.chain.sink).logic.all fuel () (fun _ _ => trivial) m rfl

end Course

end Eval

end TreeLang
