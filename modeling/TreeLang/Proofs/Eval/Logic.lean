import Mathlib
import TreeLang.Eval.Tree

/-!
# One induction for all runs

What holds along a run is shown from what its parts do: counting a tree, asking whether the run may
go on, reading and writing scopes, printing, entering and leaving frames and function bodies. A
`Logic` is a judgement of runs together with a rule for each of these parts. The rules for loops,
arguments and sequences, and the case split over the forms of trees, are the same for all of them
and stand here once: every run of a tree is judged well if the tree may run (`Logic.tree`,
`Logic.all`).

A judgement may also speak of what is noted along a run: something at every tree that the run comes
to, and something for every function body, from what is noted inside it (`Notes`).
-/

set_option autoImplicit false

namespace TreeLang

/-- The machine at the start of a run, with the counts anew. -/
def Machine.restarted (m : Machine) : Machine := { m with steps := 0, depth := 0 }

/-- How a run ends, without the machine it leaves. -/
def outcomeOf : EStateM.Result Halt Machine Int64 → Except Halt Int64
  | .ok v _ => .ok v
  | .error h _ => .error h

namespace Eval

variable {α β ε : Type}

/-- The machine that a run leaves behind. -/
def final : EStateM.Result Halt Machine α → Machine
  | .ok _ m => m
  | .error _ m => m

/-- The machine inside one more frame. -/
def enter (f : Frame) (m : Machine) : Machine := { m with chain := f :: m.chain }

/-- The machine outside its current frame. -/
def leave (m : Machine) : Machine := { m with chain := m.chain.tail }

/-- The machine inside one more function body. -/
def enterBody (o : Options) (func : Text) (args : Nat) (m : Machine) : Machine :=
  { m with
    depth := m.depth + 1
    calls := if o.recorded then ⟨func, args, m.depth + 1⟩ :: m.calls else m.calls }

/-- The machine outside the function body it is in. -/
def leaveBody (m : Machine) : Machine := { m with depth := m.depth - 1 }

/-- After a run with a value, what comes next starts from that value and the machine left. -/
theorem bind_ok {x : Eval α} {f : α → Eval β} {m m' : Machine} {a : α} (h : x m = .ok a m') :
    (x >>= f) m = f a m' := by
  show EStateM.bind x f m = f a m'
  rw [EStateM.bind, h]

/-- After a halted run, nothing comes next. -/
theorem bind_error {x : Eval α} {f : α → Eval β} {m m' : Machine} {e : Halt}
    (h : x m = .error e m') : (x >>= f) m = .error e m' := by
  show EStateM.bind x f m = .error e m'
  rw [EStateM.bind, h]

/-- A run between something done to the machine before it and something done to it after it. -/
def around (before after : Machine → Machine) (x : Eval α) : Eval α := fun m =>
  match x (before m) with
  | .ok a m => .ok a (after m)
  | .error e m => .error e (after m)

/-- The machine that is left in the end is the one after what is done last. -/
theorem around_final (before after : Machine → Machine) (x : Eval α) (m : Machine) :
    final (around before after x m) = after (final (x (before m))) := by
  unfold around
  cases x (before m) <;> rfl

/-- A run in a frame enters it and leaves it. -/
theorem inFrame_eq (f : Frame) (x : Eval α) : inFrame f x = around (enter f) leave x := rfl

/-- A run in a body enters it and leaves it. -/
theorem inBody_eq (o : Options) (func : Text) (args : Nat) (x : Eval α) :
    inBody o func args x = around (enterBody o func args) leaveBody x := rfl

/-! ## Notes along a run -/

/-- What comes after a run: nothing if the run was halted. -/
def thereafter (r : EStateM.Result Halt Machine α) (next : α → Machine → List ε) : List ε :=
  match r with
  | .ok a m => next a m
  | .error _ _ => []

@[simp] theorem thereafter_ok (a : α) (m : Machine) (next : α → Machine → List ε) :
    thereafter (.ok a m) next = next a m := rfl

@[simp] theorem thereafter_error (h : Halt) (m : Machine) (next : α → Machine → List ε) :
    thereafter (.error h m) next = [] := rfl

/-- If nothing comes after a run, it does not matter how the run ends. -/
@[simp] theorem thereafter_nil (r : EStateM.Result Halt Machine α) :
    thereafter r (fun _ _ => ([] : List ε)) = [] := by
  cases r <;> rfl

/-- What comes after a run of two parts comes after the second part. -/
theorem thereafter_bind (x : Eval α) (f : α → Eval β) (m : Machine) (next : β → Machine → List ε) :
    thereafter ((x >>= f) m) next = thereafter (x m) fun a m => thereafter (f a m) next := by
  cases h : x m with
  | ok a m' => rw [bind_ok h, thereafter_ok]
  | error e m' => rw [bind_error h, thereafter_error, thereafter_error]

/-- Two things that come after a run come after it one after the other. -/
theorem thereafter_append (r : EStateM.Result Halt Machine α) (next rest : α → Machine → List ε) :
    thereafter r next ++ thereafter r rest = thereafter r fun a m => next a m ++ rest a m := by
  cases r <;> rfl

/-- Along what is evaluated one after the other. -/
def notedInOrder (eval : α → Eval Int64) (noted : α → Machine → List ε) :
    List α → Machine → List ε
  | [], _ => []
  | a :: as, m => noted a m ++ thereafter (eval a m) fun _ m => notedInOrder eval noted as m

/-- Along a loop: in every turn what is noted in its test, and then what is noted in its body. -/
def notedRepeated (test body : Eval Int64) (inTest inBody : Machine → List ε) :
    Nat → Machine → List ε
  | 0, _ => []
  | fuel + 1, m =>
    thereafter (check m) fun _ m => inTest m ++ thereafter (test m) fun v m =>
      if v = 1 then
        inBody m ++ thereafter (body m) fun _ m => notedRepeated test body inTest inBody fuel m
      else []

/-- Along the arguments of a call. -/
def notedArgs (eval : Tree → Eval Int64) (noted : Tree → Machine → List ε) :
    List Text → List Tree → Frame → Machine → List ε
  | p :: ps, a :: as, f, m => noted a m ++ thereafter (eval a m) fun v m =>
    match f.declare? p v with
    | some f => notedArgs eval noted ps as f m
    | none => []
  | _, _, _, _ => []

/-- Along a tree that may be missing. -/
def notedPresent (noted : Tree → Machine → List ε) : Option Tree → Machine → List ε
  | some t, m => noted t m
  | none, _ => []

end Eval

/-- What is noted along a run. -/
structure Notes (ε : Type) where
  /-- At a tree, on the machine as the run comes to the tree. -/
  visit : Tree → Machine → List ε
  /-- For the body of a function with a number of arguments, from what is noted inside it. -/
  body : Text → Nat → List ε → List ε

namespace Notes

open Eval

variable {ε : Type}

/-- Nothing is noted. -/
def blank : Notes Empty := ⟨fun _ _ => [], fun _ _ inside => inside⟩

/-- What is noted along the run of a tree. -/
def tree (N : Notes ε) (o : Options) : Nat → Tree → Machine → List ε
  | 0, _, _ => []
  | fuel + 1, t, m => N.visit t m ++ thereafter (step o m) fun _ m =>
    match t with
    | .none | .literal _ | .var _ | .define .. => []
    | .binary _ a b =>
      N.tree o fuel a m ++ thereafter (Eval.tree o fuel a m) fun _ m => N.tree o fuel b m
    | .seq ts => notedInOrder (Eval.tree o fuel) (N.tree o fuel) ts (enter m.chain.child m)
    | .cond c a b => N.tree o fuel c m ++ thereafter (Eval.tree o fuel c m) fun v m =>
      if v = 1 then N.tree o fuel a m else N.tree o fuel b m
    | .loop c b =>
      notedRepeated (Eval.tree o fuel c) (Eval.tree o fuel b) (N.tree o fuel c) (N.tree o fuel b)
        fuel m
    | .declare _ e | .assign _ e | .print e => N.tree o fuel e m
    | .call f args =>
      thereafter (lookupFunc f m) fun g m => thereafter (check m) fun _ m =>
        notedArgs (Eval.tree o fuel) (N.tree o fuel) g.params args m.chain.child m ++
          thereafter (bindArgs (Eval.tree o fuel) g.params args m.chain.child m) fun frame m =>
            let bound := min g.params.length args.length
            N.body g.name bound (notedPresent (N.tree o fuel) g.body
              (enter frame (enterBody o g.name bound m)))

/-- What is noted along the run of trees one after the other. -/
def all (N : Notes ε) (o : Options) (fuel : Nat) (ts : List (Option Tree)) (m : Machine) : List ε :=
  notedInOrder (present (Eval.tree o fuel)) (notedPresent (N.tree o fuel)) ts m

end Notes

namespace Eval

/-! ## Rules for the parts of a run -/

variable {α ε : Type} {N : Notes ε} {o : Options}

/-- A judgement of runs and of what is noted along them. It may depend on an index, such as the
depth of frames or what is left to spend. The rules here are for the parts of a run that do not
depend on the tree at hand. -/
structure Judgement (N : Notes ε) (o : Options) where
  Index : Type := Unit
  Holds : {α : Type} → Index → Eval α → (Machine → List ε) → Prop
  MayCall : Function → Prop := fun _ => True
  MayEnter : Frame → Prop := fun _ => True
  /-- The index inside one more frame. -/
  inside : Index → Index := id
  pure : ∀ {α : Type} {i} (a : α), Holds i (pure a) fun _ => []
  bind : ∀ {α β : Type} {i} {x : Eval α} {f : α → Eval β} {noted : Machine → List ε}
    {next : α → Machine → List ε}, Holds i x noted → (∀ a, Holds i (f a) (next a)) →
    Holds i (x >>= f) fun m => noted m ++ thereafter (x m) next
  duplicate : ∀ {i g x}, MayCall g → x ∈ g.params →
    Holds i (fail (.duplicate x) : Eval Int64) fun _ => []
  print : ∀ {i} v, Holds i (print v) fun _ => []
  /-- The frame that is made for a sequence or a call may be entered. -/
  child : ∀ {i} {F : Frame → Eval Int64} {noted : Frame → Machine → List ε},
    (∀ f, MayEnter f → Holds i (F f) (noted f)) →
    Holds i (do F (← get).chain.child) fun m => noted m.chain.child m
  /-- Binding a parameter does not keep a frame from being entered. -/
  bound : ∀ {f f' x v}, MayEnter f → f.declare? x v = some f' → MayEnter f' := by intros; trivial
  inFrame : ∀ {i f} {x : Eval Int64} {noted : Machine → List ε}, MayEnter f →
    Holds (inside i) x noted → Holds i (inFrame f x) fun m => noted (enter f m)
  inBody : ∀ {i f n} {x : Eval Int64} {noted : Machine → List ε}, Holds i x noted →
    Holds i (inBody o f n x) fun m => N.body f n (noted (enterBody o f n m))

/-- A judgement with rules for trees as well. Counting a tree, and passing the check of a call, may
change the index. -/
structure Logic (N : Notes ε) (o : Options) extends Judgement N o where
  /-- With so much fuel the tree may run, or be found missing. -/
  MayRun : Index → Nat → Option Tree → Prop
  /-- The index once a tree is counted. -/
  Counted : Index → Index → Prop
  /-- The index once the check of a call is passed. -/
  Asked : Index → Index → Prop
  outOfFuel : ∀ {i t}, MayRun i 0 (some t) → Holds i (throw .outOfFuel : Eval Int64) fun _ => []
  missing : ∀ {i fuel}, MayRun i fuel none → Holds i (fail .missingTree : Eval Int64) fun _ => []
  step : ∀ {i fuel t} {x : Eval Int64} {noted : Machine → List ε}, MayRun i (fuel + 1) (some t) →
    (∀ j, Counted i j → Holds j x noted) →
    Holds i (step o >>= fun _ => x) fun m => N.visit t m ++ thereafter (step o m) fun _ => noted
  check : ∀ {i} {x : Eval Int64} {noted : Machine → List ε}, (∀ j, Asked i j → Holds j x noted) →
    Holds i (check >>= fun _ => x) fun m => thereafter (check m) fun _ => noted
  loop : ∀ {i j fuel c b}, MayRun i (fuel + 1) (some (.loop c b)) → Counted i j →
    Holds j (tree o fuel c) (N.tree o fuel c) → Holds j (tree o fuel b) (N.tree o fuel b) →
    Holds j (repeated (tree o fuel c) (tree o fuel b) fuel 0)
      (notedRepeated (tree o fuel c) (tree o fuel b) (N.tree o fuel c) (N.tree o fuel b) fuel)
  lookup : ∀ {i j fuel x}, MayRun i (fuel + 1) (some (.var x)) → Counted i j →
    Holds j (lookup x) fun _ => []
  lookupFunc : ∀ {i j fuel f args} {F : Function → Eval Int64}
    {noted : Function → Machine → List ε}, MayRun i (fuel + 1) (some (.call f args)) →
    Counted i j → (∀ g, MayCall g → Holds j (F g) (noted g)) →
    Holds j (lookupFunc f >>= F) fun m => thereafter (lookupFunc f m) noted
  declare : ∀ {i j fuel x e} v, MayRun i (fuel + 1) (some (.declare x e)) → Counted i j →
    Holds j (declare x v) fun _ => []
  assign : ∀ {i j fuel x e} v, MayRun i (fuel + 1) (some (.assign x e)) → Counted i j →
    Holds j (assign x v) fun _ => []
  define : ∀ {i j fuel f ps b}, MayRun i (fuel + 1) (some (.define f ps b)) → Counted i j →
    Holds j (define f ⟨f, ps, some b⟩) fun _ => []
  /-- The trees of a sequence run inside its frame, and all others where the tree runs. -/
  children : ∀ {i j fuel t u}, MayRun i (fuel + 1) (some t) → Counted i j → u ∈ t.children →
    MayRun (if t.kind = .seq then inside j else j) fuel (some u)
  /-- Arguments may still run once the check is passed. -/
  args : ∀ {i j fuel u}, MayRun i fuel u → Asked i j → MayRun j fuel u
  body : ∀ {i j k fuel f args g}, MayRun i (fuel + 1) (some (.call f args)) → Counted i j →
    Asked j k → MayCall g → MayRun (inside k) fuel g.body

/-- A judgement with rules for trees that depend neither on the fuel nor on what was spent so
far. -/
structure Plain (N : Notes ε) (o : Options) extends Judgement N o where
  /-- The tree may run, or be found missing. -/
  MayRun : Index → Option Tree → Prop := fun _ _ => True
  outOfFuel : ∀ {i}, Holds i (throw .outOfFuel : Eval Int64) fun _ => []
  missing : ∀ {i}, MayRun i none → Holds i (fail .missingTree : Eval Int64) fun _ => []
  step : ∀ {i t}, MayRun i (some t) → Holds i (step o) (N.visit t)
  check : ∀ {i}, Holds i check fun _ => []
  lookup : ∀ {i x}, MayRun i (some (.var x)) → Holds i (lookup x) fun _ => []
  lookupFunc : ∀ {i f args} {F : Function → Eval Int64} {noted : Function → Machine → List ε},
    MayRun i (some (.call f args)) → (∀ g, MayCall g → Holds i (F g) (noted g)) →
    Holds i (lookupFunc f >>= F) fun m => thereafter (lookupFunc f m) noted
  declare : ∀ {i x e} v, MayRun i (some (.declare x e)) → Holds i (declare x v) fun _ => []
  assign : ∀ {i x e} v, MayRun i (some (.assign x e)) → Holds i (assign x v) fun _ => []
  define : ∀ {i f ps b}, MayRun i (some (.define f ps b)) →
    Holds i (define f ⟨f, ps, some b⟩) fun _ => []
  children : ∀ {i t u}, MayRun i (some t) → u ∈ t.children →
    MayRun (if t.kind = .seq then inside i else i) (some u) := by intros; trivial
  body : ∀ {i f args g}, MayRun i (some (.call f args)) → MayCall g → MayRun (inside i) g.body := by
    intros; trivial

namespace Plain

variable (P : Plain N o)

/-- A loop is judged well if its test and its body are, turn by turn. -/
theorem repeated {i : P.Index} {test body : Eval Int64} {inTest inBody : Machine → List ε}
    (ht : P.Holds i test inTest) (hb : P.Holds i body inBody) (fuel : Nat) (last : Int64) :
    P.Holds i (repeated test body fuel last) (notedRepeated test body inTest inBody fuel) := by
  induction fuel generalizing last with
  | zero => exact P.outOfFuel
  | succ fuel ih =>
    refine P.bind P.check fun _ => P.bind ht fun v => ?_
    by_cases hv : v = 1
    · simp only [if_pos hv]
      exact P.bind hb fun w => ih w
    · simp only [if_neg hv]
      exact P.pure last

/-- The rules of a plain judgement, where nothing changes the index but the entry of a frame. -/
def logic : Logic N o where
  toJudgement := P.toJudgement
  MayRun i _ t := P.MayRun i t
  Counted := Eq
  Asked := Eq
  outOfFuel _ := P.outOfFuel
  missing := P.missing
  step ht hx := P.bind (P.step ht) fun _ => hx _ rfl
  check hx := P.bind P.check fun _ => hx _ rfl
  loop _ _ hc hb := P.repeated hc hb _ 0
  lookup := by
    rintro i _ fuel x ht rfl
    exact P.lookup ht
  lookupFunc := by
    rintro i _ fuel f args F noted ht rfl hF
    exact P.lookupFunc ht hF
  declare := by
    rintro i _ fuel x e v ht rfl
    exact P.declare v ht
  assign := by
    rintro i _ fuel x e v ht rfl
    exact P.assign v ht
  define := by
    rintro i _ fuel f ps b ht rfl
    exact P.define ht
  children := by
    rintro i _ fuel t u ht rfl hu
    exact P.children ht hu
  args := by
    rintro i _ fuel u hu rfl
    exact hu
  body := by
    rintro i _ _ fuel f args g ht rfl rfl hg
    exact P.body ht hg

end Plain

/-! ## Runs of trees -/

namespace Logic

variable (L : Logic N o) {i : L.Index}

/-- What is done with the value of a run may note nothing more. -/
theorem bind_silent {β : Type} {x : Eval α} {f : α → Eval β} {noted : Machine → List ε}
    (hx : L.Holds i x noted) (hf : ∀ a, L.Holds i (f a) fun _ => []) : L.Holds i (x >>= f) noted := by
  have h := L.bind hx hf
  simpa only [thereafter_nil, List.append_nil] using h

/-- Runs one after the other. -/
theorem inOrder {eval : α → Eval Int64} {noted : α → Machine → List ε} {as : List α}
    (he : ∀ a ∈ as, L.Holds i (eval a) (noted a)) (last : Int64) :
    L.Holds i (inOrder eval as last) (notedInOrder eval noted as) := by
  induction as generalizing last with
  | nil => exact L.pure last
  | cons a as ih =>
    obtain ⟨ha, has⟩ := List.forall_mem_cons.1 he
    exact L.bind ha fun v => ih has v

/-- A tree that may be missing. -/
theorem present {eval : Tree → Eval Int64} {noted : Tree → Machine → List ε} {fuel : Nat}
    {t : Option Tree} (ht : L.MayRun i fuel t)
    (he : ∀ u, t = some u → L.Holds i (eval u) (noted u)) :
    L.Holds i (present eval t) (notedPresent noted t) := by
  cases t with
  | some u => exact he u rfl
  | none => exact L.missing ht

/-- Arguments are bound one after the other in a frame that may be entered, and what comes next is
given a frame that may be entered. -/
theorem bindArgs {eval : Tree → Eval Int64} {noted : Tree → Machine → List ε} {g : Function}
    (hg : L.MayCall g) {F : Frame → Eval Int64} {next : Frame → Machine → List ε}
    (hF : ∀ f, L.MayEnter f → L.Holds i (F f) (next f)) {ps : List Text}
    (hps : ∀ x ∈ ps, x ∈ g.params) {as : List Tree}
    (he : ∀ a ∈ as, L.Holds i (eval a) (noted a)) {f : Frame} (hf : L.MayEnter f) :
    L.Holds i (bindArgs eval ps as f >>= F) fun m =>
      notedArgs eval noted ps as f m ++ thereafter (bindArgs eval ps as f m) next := by
  induction ps generalizing as f with
  | nil => exact hF f hf
  | cons p ps ih =>
    cases as with
    | nil => exact hF f hf
    | cons a as =>
      obtain ⟨hp, hps⟩ := List.forall_mem_cons.1 hps
      obtain ⟨ha, has⟩ := List.forall_mem_cons.1 he
      simp only [Eval.bindArgs, notedArgs, bind_assoc, thereafter_bind, List.append_assoc,
        thereafter_append]
      refine L.bind ha fun v => ?_
      cases hd : f.declare? p v with
      | some f' => exact ih hps has (L.bound hf hd)
      | none => exact L.duplicate hg hp

/-- A call once the check is passed: the arguments are bound in a frame, and the body runs in it. -/
theorem call {fuel : Nat} {g : Function} (hg : L.MayCall g)
    (hbody : L.MayRun (L.inside i) fuel g.body)
    (ih : ∀ i t, L.MayRun i fuel (some t) → L.Holds i (Eval.tree o fuel t) (N.tree o fuel t))
    (args : List Tree) (hargs : ∀ a ∈ args, L.MayRun i fuel (some a)) (n : Nat) {f : Frame}
    (hf : L.MayEnter f) :
    L.Holds i
      (Eval.bindArgs (Eval.tree o fuel) g.params args f >>= fun frame =>
        Eval.inBody o g.name n (Eval.inFrame frame (Eval.present (Eval.tree o fuel) g.body)))
      fun m => notedArgs (Eval.tree o fuel) (N.tree o fuel) g.params args f m ++
        thereafter (Eval.bindArgs (Eval.tree o fuel) g.params args f m) fun frame m =>
          N.body g.name n (notedPresent (N.tree o fuel) g.body
            (enter frame (enterBody o g.name n m))) := by
  refine L.bindArgs hg (fun frame hframe => ?_) (fun _ h => h) (fun a ha => ih i a (hargs a ha)) hf
  have hrun := L.present hbody fun u hu => ih _ u (hu ▸ hbody)
  exact L.inBody (L.inFrame hframe hrun)

/-- Every run of a tree is judged well, if the tree may run. -/
theorem tree (fuel : Nat) (i : L.Index) (t : Tree) (ht : L.MayRun i fuel (some t)) :
    L.Holds i (tree o fuel t) (N.tree o fuel t) := by
  induction fuel generalizing i t with
  | zero => exact L.outOfFuel ht
  | succ fuel ih =>
    refine L.step ht fun j hj => ?_
    have inside : ∀ u ∈ t.children, L.Holds (if t.kind = .seq then L.inside j else j)
        (Eval.tree o fuel u) (N.tree o fuel u) := fun u hu => ih _ u (L.children ht hj hu)
    cases t with
    | none => exact L.pure 0
    | literal v => exact L.pure v
    | binary op a b =>
      have ha := inside a (by simp [Tree.children])
      have hb := inside b (by simp [Tree.children])
      exact L.bind ha fun x => L.bind_silent hb fun y => L.pure _
    | seq ts => exact L.child fun f hf => L.inFrame hf (L.inOrder inside 0)
    | cond c a b =>
      refine L.bind (inside c (by simp [Tree.children])) fun v => ?_
      by_cases hv : v = 1
      · simp only [if_pos hv]
        exact inside a (by simp [Tree.children])
      · simp only [if_neg hv]
        exact inside b (by simp [Tree.children])
    | loop c b =>
      have hc := inside c (by simp [Tree.children])
      have hb := inside b (by simp [Tree.children])
      exact L.loop ht hj hc hb
    | declare x e =>
      have he := inside e (by simp [Tree.children])
      exact L.bind_silent he fun v => L.bind_silent (L.declare v ht hj) fun _ => L.pure v
    | assign x e =>
      have he := inside e (by simp [Tree.children])
      exact L.bind_silent he fun v => L.bind_silent (L.assign v ht hj) fun _ => L.pure v
    | var x => exact L.lookup ht hj
    | print e =>
      have he := inside e (by simp [Tree.children])
      exact L.bind_silent he fun v => L.bind_silent (L.print v) fun _ => L.pure v
    | define f ps b => exact L.bind_silent (L.define ht hj) fun _ => L.pure 0
    | call f args =>
      refine L.lookupFunc ht hj fun g hg => L.check fun k hk => ?_
      have hbody := L.body ht hj hk hg
      have hargs : ∀ a ∈ args, L.MayRun k fuel (some a) :=
        fun a ha => L.args (L.children ht hj ha) hk
      have hcall := fun (frame : Frame) (hframe : L.MayEnter frame) =>
        L.call hg hbody ih args hargs (min g.params.length args.length) hframe
      exact L.child hcall

/-- Every run of trees one after the other is judged well, if the trees may run. -/
theorem all (fuel : Nat) (i : L.Index) {ts : List (Option Tree)}
    (hts : ∀ t ∈ ts, L.MayRun i fuel t) : L.Holds i (all o fuel ts) (N.all o fuel ts) :=
  L.inOrder (fun t ht => L.present (hts t ht) fun u hu => L.tree fuel i u (hu ▸ hts t ht)) 0

end Logic

end Eval

end TreeLang
