import TreeLang.Proofs.Eval.Output
import TreeLang.Proofs.Tree.Uses

/-!
# Two runs side by side

Two runs that do the same at every step end alike. What "the same" means is left open here: a
coupling says which machines, frames, names, trees and halts correspond to each other. If counting,
asking, reading and writing scopes, printing, and entering and leaving frames and bodies keep to the
correspondence, then so do the runs of corresponding trees (`Simulation.tree`, `Simulation.all`).

A coupling may also name halts that cut the first run. After such a halt the runs have nothing to do
with each other any more, but that what the first one has printed is where the output of the second
one starts. A coupling may ask for more than that, if more output of the second run cannot undo it
(`Lag`).

Machines are related at a depth, the number of frames that the runs have entered so far. Leaving a
frame leads back to the depth before, so that a relation can speak of the frames that were there at
the start.
-/

set_option autoImplicit false

namespace TreeLang

/-! ## Trees and functions of one shape -/

/-- A list that corresponds to another one entry by entry is its image. -/
theorem forall₂_eq_map_iff {α β : Type} (f : α → β) (as : List α) (bs : List β) :
    List.Forall₂ (fun a b => b = f a) as bs ↔ bs = as.map f := by
  constructor
  · intro h
    induction h with
    | nil => rfl
    | cons hab _ ih => rw [hab, ih, List.map_cons]
  · rintro rfl
    rw [List.forall₂_map_right_iff, List.forall₂_same]
    exact fun _ _ => rfl

theorem rel_refl {α : Type} {R : α → α → Prop} (h : ∀ a, R a a) : ∀ x : Option α, Option.Rel R x x
  | none => .none
  | some a => .some (h a)

/-- A value and its image, if there are any, are related where every value and its image are. -/
theorem rel_map {α β : Type} {R : α → β → Prop} {f : α → β} (h : ∀ a, R a (f a)) :
    ∀ x : Option α, Option.Rel R x (x.map f)
  | none => .none
  | some a => .some (h a)

theorem rel_imp {α β : Type} {R S : α → β → Prop} {x : Option α} {y : Option β} (h : Option.Rel R x y)
    (hS : ∀ {a b}, x = some a → R a b → S a b) : Option.Rel S x y := by
  cases h with
  | none => exact .none
  | some h => exact .some (hS rfl h)

/-- What relates two values, if there are any, relates what is made of them. -/
theorem rel_map_map {α β γ δ : Type} {R : α → β → Prop} {S : γ → δ → Prop} {a : Option α}
    {b : Option β} {f : α → γ} {g : β → δ} (h : Option.Rel R a b)
    (hS : ∀ {x y}, R x y → S (f x) (g y)) : Option.Rel S (a.map f) (b.map g) := by
  cases h with
  | none => exact .none
  | some h => exact .some (hS h)

/-- Two trees of one form, with names in their roles related by `N` and the trees inside related
by `T`. -/
inductive Tree.Alike (N : Role → Text → Text → Prop) (T : Tree → Tree → Prop) : Tree → Tree → Prop
  | none : Alike N T .none .none
  | literal (v : Int64) : Alike N T (.literal v) (.literal v)
  | binary (op : Op) {a b a' b' : Tree} :
      T a a' → T b b' → Alike N T (.binary op a b) (.binary op a' b')
  | seq {ts us : List Tree} : List.Forall₂ T ts us → Alike N T (.seq ts) (.seq us)
  | cond {c a b c' a' b' : Tree} :
      T c c' → T a a' → T b b' → Alike N T (.cond c a b) (.cond c' a' b')
  | loop {c b c' b' : Tree} : T c c' → T b b' → Alike N T (.loop c b) (.loop c' b')
  | declare {x y : Text} {e e' : Tree} :
      N .declared x y → T e e' → Alike N T (.declare x e) (.declare y e')
  | assign {x y : Text} {e e' : Tree} :
      N .assigned x y → T e e' → Alike N T (.assign x e) (.assign y e')
  | var {x y : Text} : N .read x y → Alike N T (.var x) (.var y)
  | print {e e' : Tree} : T e e' → Alike N T (.print e) (.print e')
  | define {f g : Text} {ps qs : List Text} {b b' : Tree} :
      N .defined f g → List.Forall₂ (N .param) ps qs → T b b' →
        Alike N T (.define f ps b) (.define g qs b')
  | call {f g : Text} {as bs : List Tree} :
      N .called f g → List.Forall₂ T as bs → Alike N T (.call f as) (.call g bs)

/-- Every tree is of its own form. -/
theorem Tree.Alike.refl (t : Tree) : Tree.Alike (fun _ => Eq) Eq t t := by
  have hall : ∀ ts : List Tree, List.Forall₂ Eq ts ts :=
    fun ts => List.forall₂_same.2 fun _ _ => rfl
  cases t with
  | none => exact .none
  | literal v => exact .literal v
  | binary op a b => exact .binary op rfl rfl
  | seq ts => exact .seq (hall ts)
  | cond c a b => exact .cond rfl rfl rfl
  | loop c b => exact .loop rfl rfl
  | declare x e => exact .declare rfl rfl
  | assign x e => exact .assign rfl rfl
  | var x => exact .var rfl
  | print e => exact .print rfl
  | define f ps b => exact .define rfl (List.forall₂_same.2 fun _ _ => rfl) rfl
  | call f as => exact .call rfl (hall as)

theorem Tree.forall₂_rel_eq (ts : List (Option Tree)) : List.Forall₂ (Option.Rel Eq) ts ts := by
  exact List.forall₂_same.2 fun t _ => rel_refl Eq.refl t

/-- Two functions with names related by `N` and bodies by `T`. -/
structure Function.Alike (N : Role → Text → Text → Prop) (T : Tree → Tree → Prop) (f g : Function) :
    Prop where
  name : N .defined f.name g.name
  params : List.Forall₂ (N .param) f.params g.params
  body : Option.Rel T f.body g.body

theorem Function.Alike.refl (f : Function) : Function.Alike (fun _ => Eq) Eq f f := by
  exact ⟨rfl, List.forall₂_same.2 fun _ _ => rfl, rel_refl Eq.refl f.body⟩

theorem Function.Alike.eq {f g : Function} (h : Function.Alike (fun _ => Eq) Eq f g) : f = g := by
  obtain ⟨name, params, body⟩ := f
  obtain ⟨name', params', body'⟩ := g
  obtain ⟨hname, hparams, hbody⟩ := h
  rw [List.forall₂_eq_eq_eq] at hparams
  cases hbody with
  | none => simp_all
  | some hb => simp_all

namespace Eval

open Machine (Extends)

variable {α α' β β' : Type}

/-! ## Couplings -/

/-- How a run that was cut is behind another one, as far as the sinks of the machines show it. More
output of the other one does not change that. -/
structure Lag where
  behind : Machine → Machine → Prop
  extends_ : ∀ {a b c}, behind a b → Extends b c → behind a c
  sinks : ∀ {a a' b}, a'.sinks = a.sinks → behind a b → behind a' b

/-- What the first run has printed is where the output of the second one starts. -/
def Lag.printed : Lag where
  behind := Extends
  extends_ h k := h.trans k
  sinks hs h := (Extends.of_sinks hs.symm).trans h

/-- What corresponds to what in two runs, and what cuts the first one. -/
structure Coupling where
  /-- The machines, inside so many frames that were entered. -/
  machines : Nat → Machine → Machine → Prop
  frames : Frame → Frame → Prop
  /-- The names in their roles. -/
  names : Role → Text → Text → Prop
  trees : Tree → Tree → Prop
  halts : Halt → Halt → Prop
  /-- The halts after which the second run may go on by itself. -/
  cut : Halt → Prop
  /-- How the first run is behind the second one after it was cut. -/
  lag : Lag := .printed

variable {K : Coupling} {d : Nat}

/-- Corresponding functions. -/
abbrev Coupling.functions (K : Coupling) (f g : Function) : Prop :=
  Function.Alike K.names K.trees f g

/-- How two runs end at a depth, with values that are related by `V`: both with a value, both
halted, or the first one cut, and then it is behind the second one. -/
inductive Agree (K : Coupling) (d : Nat) (V : α → α' → Prop) :
    EStateM.Result Halt Machine α → EStateM.Result Halt Machine α' → Prop
  | ok {v : α} {w : α'} {a b : Machine} : V v w → K.machines d a b → Agree K d V (.ok v a) (.ok w b)
  | error {h k : Halt} {a b : Machine} :
      K.halts h k → K.machines d a b → Agree K d V (.error h a) (.error k b)
  | cut {h : Halt} {a : Machine} {r : EStateM.Result Halt Machine α'} :
      K.cut h → K.lag.behind a (final r) → Agree K d V (.error h a) r

/-- Runs of which neither is cut end with the same value, or with halts that are the same. -/
theorem Agree.uncut {r r' : EStateM.Result Halt Machine Int64} (h : Agree K d Eq r r')
    (hcut : ∀ k, ¬ K.cut k) (hhalts : ∀ {k k'}, K.halts k k' → k = k') :
    outcomeOf r' = outcomeOf r ∧ K.machines d (final r) (final r') := by
  cases h with
  | ok hv hab => exact ⟨congrArg Except.ok hv.symm, hab⟩
  | error hk hab => exact ⟨congrArg Except.error (hhalts hk).symm, hab⟩
  | cut hc _ => exact absurd hc (hcut _)

/-- From corresponding machines the runs end alike. -/
def Agrees (K : Coupling) (d : Nat) (V : α → α' → Prop) (x : Eval α) (y : Eval α') : Prop :=
  ∀ {a b : Machine}, K.machines d a b → Agree K d V (x a) (y b)

/-- From corresponding machines the runs end alike, and the second one only adds to what was
printed. -/
structure InStep (K : Coupling) (d : Nat) (V : α → α' → Prop) (x : Eval α) (y : Eval α') :
    Prop where
  agrees : Agrees K d V x y
  extends_ : Moves Extends y

/-- Everything a run does keeps to the correspondence. -/
structure Simulation (K : Coupling) (o o' : Options) : Prop where
  trees : ∀ {t u}, K.trees t u → Tree.Alike K.names K.trees t u
  outOfFuel : K.halts .outOfFuel .outOfFuel
  missingTree : K.halts (.error .missingTree) (.error .missingTree)
  duplicate : ∀ {x y}, K.names .param x y → K.halts (.error (.duplicate x)) (.error (.duplicate y))
  step : ∀ d, Agrees K d Eq (step o) (step o')
  check : ∀ d, Agrees K d Eq check check
  lookup : ∀ d {x y}, K.names .read x y → Agrees K d Eq (lookup x) (lookup y)
  lookupFunc : ∀ d {f g}, K.names .called f g →
    Agrees K d K.functions (lookupFunc f) (lookupFunc g)
  declare : ∀ d {x y} v, K.names .declared x y → Agrees K d Eq (declare x v) (declare y v)
  assign : ∀ d {x y} v, K.names .assigned x y → Agrees K d Eq (assign x v) (assign y v)
  define : ∀ d {f g F G}, K.names .defined f g → K.functions F G →
    Agrees K d Eq (define f F) (define g G)
  print : ∀ d v, Agrees K d Eq (print v) (print v)
  child : ∀ {d a b}, K.machines d a b → K.frames a.chain.child b.chain.child
  bind : ∀ {f g x y} v, K.frames f g → K.names .param x y →
    Option.Rel K.frames (f.declare? x v) (g.declare? y v)
  enter : ∀ {d a b f g}, K.machines d a b → K.frames f g →
    K.machines (d + 1) (enter f a) (enter g b)
  leave : ∀ {d a b}, K.machines (d + 1) a b → K.machines d (leave a) (leave b)
  enterBody : ∀ {d a b f g} n, K.machines d a b → K.names .defined f g →
    K.machines d (enterBody o f n a) (enterBody o' g n b)
  leaveBody : ∀ {d a b}, K.machines d a b → K.machines d (leaveBody a) (leaveBody b)
  printed : ∀ {d a b}, K.cut .outOfFuel → K.machines d a b → K.lag.behind a b

/-- Fuel for two runs: the same, or more for the second one if the first one may be cut for lack of
it. -/
def Coupling.Fuels (K : Coupling) (n n' : Nat) : Prop := n = n' ∨ K.cut .outOfFuel ∧ n ≤ n'

/-- Fuels that correspond do so with one less. -/
theorem Coupling.Fuels.pred {n n' : Nat} (h : K.Fuels (n + 1) (n' + 1)) : K.Fuels n n' := by
  rcases h with h | ⟨hc, h⟩
  · exact Or.inl (by omega)
  · exact Or.inr ⟨hc, by omega⟩

/-- The first run may have less fuel only if the lack of it is a cut. -/
theorem Coupling.Fuels.cut {n' : Nat} (h : K.Fuels 0 (n' + 1)) : K.cut .outOfFuel := by
  rcases h with h | ⟨hc, -⟩
  · omega
  · exact hc

theorem Coupling.Fuels.not_zero {n : Nat} : ¬ K.Fuels (n + 1) 0 := by
  rintro (h | ⟨-, h⟩)
  · omega
  · omega

/-! ## Counting and asking alike -/

/-- Machines of which the second one has counted so many more trees, under a limit that is greater
by as many. -/
theorem agrees_step (more : Nat) {o o' : Options} (ho : o'.limit = o.limit.map (· + more))
    (hk : ∀ n, K.halts (.error (.stepLimit n)) (.error (.stepLimit (n + more))))
    (h : ∀ {a b}, K.machines d a b → b.steps = a.steps + more ∧
      ∀ s, K.machines d { a with steps := s } { b with steps := s + more }) :
    Agrees K d Eq (step o) (step o') := by
  intro a b hab
  obtain ⟨hsteps, hset⟩ := h hab
  have hnext : b.steps + 1 = a.steps + 1 + more := by omega
  unfold step
  rw [ho, hnext]
  cases o.limit with
  | none => exact .ok rfl hab
  | some n =>
    simp only [Option.map_some, Nat.add_lt_add_iff_right]
    by_cases hn : n < a.steps + 1
    · simp only [if_pos hn]
      exact .error (hk n) (hset _)
    · simp only [if_neg hn]
      exact .ok rfl (hset _)

/-- Machines with as many checks left. -/
theorem agrees_check (hk : K.halts (.error .canceled) (.error .canceled))
    (h : ∀ {a b}, K.machines d a b → b.checks = a.checks ∧
      ∀ k, K.machines d { a with checks := k } { b with checks := k }) :
    Agrees K d Eq check check := by
  intro a b hab
  obtain ⟨hchecks, hset⟩ := h hab
  unfold check
  rw [hchecks]
  cases a.checks with
  | none => exact .ok rfl hab
  | some k =>
    cases k with
    | zero => exact .error hk hab
    | succ k => exact .ok rfl (hset _)

/-! ## Reading and writing scopes alike -/

/-- Scopes in which a variable has the same value. -/
theorem agrees_lookup {x y : Text}
    (hk : K.halts (.error (.undefinedVar x)) (.error (.undefinedVar y)))
    (h : ∀ {a b}, K.machines d a b → b.chain.lookup? y = a.chain.lookup? x) :
    Agrees K d Eq (lookup x) (lookup y) := by
  intro a b hab
  unfold lookup
  rw [h hab]
  cases a.chain.lookup? x with
  | none => exact .error hk hab
  | some v => exact .ok rfl hab

/-- Scopes in which corresponding functions have the names. -/
theorem agrees_lookupFunc {f g : Text}
    (hk : K.halts (.error (.undefinedFunc f)) (.error (.undefinedFunc g)))
    (h : ∀ {a b}, K.machines d a b →
      Option.Rel K.functions (a.chain.lookupFunc? f) (b.chain.lookupFunc? g)) :
    Agrees K d K.functions (lookupFunc f) (lookupFunc g) := by
  intro a b hab
  have hrel := h hab
  unfold lookupFunc
  generalize a.chain.lookupFunc? f = r at hrel
  generalize b.chain.lookupFunc? g = r' at hrel
  cases hrel with
  | none => exact .error hk hab
  | some hF => exact .ok hF hab

/-- The machines with other scopes, of which each may be missing. -/
abbrev Coupling.Rescoped (K : Coupling) (d : Nat) (a b : Machine) :
    Option Chain → Option Chain → Prop :=
  Option.Rel fun c c' => K.machines d { a with chain := c } { b with chain := c' }

/-- Scopes that change alike where a variable is declared. -/
theorem agrees_declare {x y : Text} (v : Int64)
    (hk : K.halts (.error (.duplicate x)) (.error (.duplicate y)))
    (h : ∀ {a b}, K.machines d a b →
      K.Rescoped d a b (a.chain.declare? x v) (b.chain.declare? y v)) :
    Agrees K d Eq (declare x v) (declare y v) := by
  intro a b hab
  have hrel := h hab
  unfold declare
  generalize a.chain.declare? x v = r at hrel
  generalize b.chain.declare? y v = r' at hrel
  cases hrel with
  | none => exact .error hk hab
  | some hc => exact .ok rfl hc

/-- Scopes that change alike where a variable is assigned. -/
theorem agrees_assign {x y : Text} (v : Int64)
    (hk : K.halts (.error (.undefinedVar x)) (.error (.undefinedVar y)))
    (h : ∀ {a b}, K.machines d a b →
      K.Rescoped d a b (a.chain.assign? x v) (b.chain.assign? y v)) :
    Agrees K d Eq (assign x v) (assign y v) := by
  intro a b hab
  have hrel := h hab
  unfold assign
  generalize a.chain.assign? x v = r at hrel
  generalize b.chain.assign? y v = r' at hrel
  cases hrel with
  | none => exact .error hk hab
  | some hc => exact .ok rfl hc

/-- Machines of which the sinks take a line alike. -/
theorem agrees_print (v : Int64) (hk : K.halts (.error .sinkFull) (.error .sinkFull))
    (h : ∀ {a b}, K.machines d a b →
      Option.Rel (fun s s' => K.machines d { a with sinks := a.sinks.set a.chain.sink s }
          { b with sinks := b.sinks.set b.chain.sink s' })
        ((a.sinks.get a.chain.sink).print? v) ((b.sinks.get b.chain.sink).print? v)) :
    Agrees K d Eq (print v) (print v) := by
  intro a b hab
  have hrel := h hab
  unfold print
  generalize (a.sinks.get a.chain.sink).print? v = s at hrel
  generalize (b.sinks.get b.chain.sink).print? v = s' at hrel
  cases hrel with
  | none => exact .error hk hab
  | some hs => exact .ok rfl hs

/-! ## Runs in step -/

namespace InStep

theorem pure {V : α → α' → Prop} {v : α} {w : α'} (h : V v w) :
    InStep K d V (Pure.pure v) (Pure.pure w) :=
  ⟨fun hab => .ok h hab, fun m => .refl m⟩

theorem halt {V : α → α' → Prop} {h k : Halt} (hk : K.halts h k) :
    InStep K d V (throw h) (throw k) :=
  ⟨fun hab => .error hk hab, fun m => .refl m⟩

/-- Runs one after the other. The second function of what comes next is also run when the first run
was cut before, so it must not take back what was printed, whatever value it is given. -/
theorem bindRel {V : α → α' → Prop} {W : β → β' → Prop} {x : Eval α} {y : Eval α'}
    {f : α → Eval β} {g : α' → Eval β'} (hx : InStep K d V x y)
    (hg : ∀ w, Moves Extends (g w)) (hf : ∀ v w, V v w → Agrees K d W (f v) (g w)) :
    InStep K d W (x >>= f) (y >>= g) := by
  refine ⟨fun {a b} hab => ?_, extends_bind hx.extends_ hg⟩
  have h := hx.agrees hab
  have hb := extends_final_bind (x := y) hg b
  cases hr : x a with
  | ok v a' =>
    rw [hr] at h
    generalize hy : y b = r at h
    cases h with
    | ok hv hab' =>
      rw [bind_ok hr, bind_ok hy]
      exact hf _ _ hv hab'
  -- the first run does not go on; the second one may, if the first was cut
  | error e a' =>
    rw [hr] at h
    rw [bind_error hr]
    generalize hy : y b = r at h hb
    cases h with
    | error hk hab' =>
      rw [bind_error hy]
      exact .error hk hab'
    | cut hc he => exact .cut hc (K.lag.extends_ he hb)

/-- Runs one after the other, with equal values in between. -/
theorem bind {W : β → β' → Prop} {x y : Eval α} {f : α → Eval β} {g : α → Eval β'}
    (hx : InStep K d Eq x y) (hf : ∀ v, InStep K d W (f v) (g v)) :
    InStep K d W (x >>= f) (y >>= g) := by
  apply bindRel hx
  · exact fun w => (hf w).extends_
  · rintro v w rfl
    exact (hf v).agrees

/-- Entering and leaving that print nothing, from one depth to another and back. -/
theorem around {e : Nat} {V : α → α' → Prop} {before before' after after' : Machine → Machine}
    {x : Eval α} {y : Eval α'} (hx : InStep K e V x y)
    (hbefore : ∀ {a b}, K.machines d a b → K.machines e (before a) (before' b))
    (hafter : ∀ {a b}, K.machines e a b → K.machines d (after a) (after' b))
    (hsb : ∀ m, (before' m).sinks = m.sinks) (hsa : ∀ m, (after m).sinks = m.sinks)
    (hsa' : ∀ m, (after' m).sinks = m.sinks) :
    InStep K d V (Eval.around before after x) (Eval.around before' after' y) := by
  refine ⟨fun {a b} hab => ?_, extends_around hx.extends_ hsb hsa'⟩
  have h := hx.agrees (hbefore hab)
  have hfin := around_final before' after' y b
  unfold Eval.around at hfin ⊢
  cases hr : x (before a) with
  | ok v a' =>
    rw [hr] at h
    generalize y (before' b) = r at h
    cases h with
    | ok hv hab' => exact .ok hv (hafter hab')
  | error e a' =>
    rw [hr] at h
    generalize y (before' b) = r at h hfin
    cases h with
    | error hk hab' => exact .error hk (hafter hab')
    -- leaving prints nothing, so what is behind stays behind
    | cut hc he =>
      refine .cut hc ?_
      rw [hfin]
      exact K.lag.sinks (hsa a') (K.lag.extends_ he (.of_sinks (hsa' _)))

/-- Runs of corresponding things one after the other. -/
theorem inOrder {T : α → α' → Prop} {as : List α} {bs : List α'} (h : List.Forall₂ T as bs)
    {eval : α → Eval Int64} {eval' : α' → Eval Int64}
    (he : ∀ a b, T a b → InStep K d Eq (eval a) (eval' b)) (last : Int64) :
    InStep K d Eq (inOrder eval as last) (inOrder eval' bs last) := by
  induction h generalizing last with
  | nil => exact pure rfl
  | cons hab _ ih => exact bind (he _ _ hab) fun v => ih v

end InStep

/-! ## Runs of trees -/

namespace Simulation

variable {o o' : Options}

/-- Runs in corresponding frames, one frame deeper. -/
theorem inFrame (S : Simulation K o o') {V : α → α' → Prop} {x : Eval α} {y : Eval α'}
    (hx : InStep K (d + 1) V x y) {f g : Frame} (hf : K.frames f g) :
    InStep K d V (inFrame f x) (inFrame g y) :=
  .around hx (fun hab => S.enter hab hf) S.leave (fun _ => rfl) (fun _ => rfl) fun _ => rfl

/-- Runs in the bodies of functions with corresponding names. -/
theorem inBody (S : Simulation K o o') {V : α → α' → Prop} {x : Eval α} {y : Eval α'}
    (hx : InStep K d V x y) {f g : Text} (hf : K.names .defined f g) (n : Nat) :
    InStep K d V (inBody o f n x) (inBody o' g n y) :=
  .around hx (fun hab => S.enterBody n hab hf) S.leaveBody (fun _ => rfl) (fun _ => rfl)
    fun _ => rfl

/-- Functions that are given an empty frame below the current one. -/
theorem fromChild (S : Simulation K o o') {V : α → α' → Prop} {F : Frame → Eval α}
    {G : Frame → Eval α'} (hG : Moves Extends (do G (← get).chain.child))
    (h : ∀ {f g}, K.frames f g → Agrees K d V (F f) (G g)) :
    InStep K d V (do F (← get).chain.child) (do G (← get).chain.child) :=
  ⟨fun hab => h (S.child hab) hab, hG⟩

/-- A run that is cut for lack of fuel at once. -/
theorem cutAtOnce (S : Simulation K o o') {V : α → α' → Prop} (hc : K.cut .outOfFuel)
    {y : Eval α'} (hy : Moves Extends y) : InStep K d V (throw .outOfFuel) y :=
  ⟨fun {_ b} hab => .cut hc (K.lag.extends_ (S.printed hc hab) (hy b)), hy⟩

/-- Runs of corresponding trees that may be missing. -/
theorem present (S : Simulation K o o') {eval eval' : Tree → Eval Int64}
    (he : ∀ {t u}, K.trees t u → InStep K d Eq (eval t) (eval' u)) {t u : Option Tree}
    (h : Option.Rel K.trees t u) : InStep K d Eq (present eval t) (present eval' u) := by
  cases h with
  | none => exact .halt S.missingTree
  | some htu => exact he htu

/-- Loops with corresponding tests and bodies go on and end together. -/
theorem repeated (S : Simulation K o o') {test test' body body' : Eval Int64}
    (ht : InStep K d Eq test test') (hb : InStep K d Eq body body') {fuel fuel' : Nat}
    (hfuel : K.Fuels fuel fuel') (last : Int64) :
    InStep K d Eq (repeated test body fuel last) (repeated test' body' fuel' last) := by
  induction fuel generalizing fuel' last with
  | zero =>
    cases fuel' with
    | zero => exact .halt S.outOfFuel
    | succ fuel' =>
      exact S.cutAtOnce hfuel.cut (extends_repeated ht.extends_ hb.extends_ _ last)
  | succ fuel ih =>
    cases fuel' with
    | zero => exact absurd hfuel Coupling.Fuels.not_zero
    | succ fuel' =>
      refine .bind ⟨S.check d, extends_check⟩ fun _ => .bind ht fun v => ?_
      by_cases hv : v = 1
      · simp only [if_pos hv]
        exact .bind hb fun w => ih hfuel.pred w
      · simp only [if_neg hv]
        exact .pure rfl

/-- The arguments are bound one by one, so the frames correspond after each of them. -/
theorem bindArgs (S : Simulation K o o') {eval eval' : Tree → Eval Int64}
    (he : ∀ {t u}, K.trees t u → InStep K d Eq (eval t) (eval' u)) {ps qs : List Text}
    (hps : List.Forall₂ (K.names .param) ps qs) {as bs : List Tree} (has : List.Forall₂ K.trees as bs)
    {f g : Frame} (hf : K.frames f g) :
    InStep K d K.frames (bindArgs eval ps as f) (bindArgs eval' qs bs g) := by
  induction hps generalizing as bs f g with
  | nil => exact .pure hf
  | @cons p q ps qs hp _ ih =>
    cases has with
    | nil => exact .pure hf
    | cons hab has =>
      refine .bind (he hab) fun v => ?_
      have hbind := S.bind v hf hp
      generalize f.declare? p v = f' at hbind
      generalize g.declare? q v = g' at hbind
      cases hbind with
      | none => exact .halt (S.duplicate hp)
      | some hf' => exact ih has hf'

/-- A call: the arguments are evaluated at the depth of the caller, the body one frame deeper. -/
theorem call (S : Simulation K o o') {fuel fuel' : Nat}
    (ih : ∀ (e : Nat) {t u}, K.trees t u →
      InStep K e Eq (Eval.tree o fuel t) (Eval.tree o' fuel' u))
    {F G : Function} (hF : K.functions F G) {as bs : List Tree}
    (has : List.Forall₂ K.trees as bs) (n : Nat) :
    InStep K d Eq
      (do
        let frame ← Eval.bindArgs (Eval.tree o fuel) F.params as (← get).chain.child
        Eval.inBody o F.name n (Eval.inFrame frame (Eval.present (Eval.tree o fuel) F.body)))
      (do
        let frame ← Eval.bindArgs (Eval.tree o' fuel') G.params bs (← get).chain.child
        Eval.inBody o' G.name n
          (Eval.inFrame frame (Eval.present (Eval.tree o' fuel') G.body))) := by
  refine S.fromChild (F := fun f => Eval.bindArgs (Eval.tree o fuel) F.params as f >>= fun frame =>
    Eval.inBody o F.name n (Eval.inFrame frame (Eval.present (Eval.tree o fuel) F.body)))
    (G := fun g => Eval.bindArgs (Eval.tree o' fuel') G.params bs g >>= fun frame =>
    Eval.inBody o' G.name n (Eval.inFrame frame (Eval.present (Eval.tree o' fuel') G.body)))
    ?_ fun hf => ?_
  · exact extends_call o' fuel' G bs n
  · refine (InStep.bindRel (S.bindArgs (ih d) hF.params has hf) (fun frame => ?_) ?_).agrees
    · exact extends_body o' fuel' G n frame
    · intro f' g' hf'
      exact (S.inBody (S.inFrame (S.present (ih (d + 1)) hF.body) hf') hF.name n).agrees

/-- The runs of corresponding trees end alike. -/
theorem tree (S : Simulation K o o') {fuel fuel' : Nat} (hfuel : K.Fuels fuel fuel') (d : Nat)
    {t u : Tree} (htu : K.trees t u) : InStep K d Eq (tree o fuel t) (tree o' fuel' u) := by
  -- Along the fuel: a tree inside runs with one less, at this depth or one frame deeper.
  induction fuel generalizing fuel' d t u with
  | zero =>
    cases fuel' with
    | zero => exact .halt S.outOfFuel
    | succ fuel' => exact S.cutAtOnce hfuel.cut (extends_tree o' _ u)
  | succ fuel ih =>
    cases fuel' with
    | zero => exact absurd hfuel Coupling.Fuels.not_zero
    | succ fuel' =>
      have ih : ∀ (e : Nat) {t u}, K.trees t u →
          InStep K e Eq (Eval.tree o fuel t) (Eval.tree o' fuel' u) :=
        fun e {t u} h => ih hfuel.pred e h
      refine .bind ⟨S.step d, extends_step o'⟩ fun _ => ?_
      cases S.trees htu with
      | none => exact .pure rfl
      | literal v => exact .pure rfl
      | binary op ha hb => exact .bind (ih d ha) fun x => .bind (ih d hb) fun y => .pure rfl
      | @seq ts us hts =>
        apply S.fromChild (F := fun f => Eval.inFrame f (Eval.inOrder (Eval.tree o fuel) ts 0))
          (G := fun g => Eval.inFrame g (Eval.inOrder (Eval.tree o' fuel') us 0))
        · exact extends_seq o' fuel' us
        · exact fun hf => (S.inFrame (.inOrder hts (fun _ _ => ih (d + 1)) 0) hf).agrees
      | cond hc ha hb =>
        refine .bind (ih d hc) fun v => ?_
        by_cases hv : v = 1
        · simp only [if_pos hv]
          exact ih d ha
        · simp only [if_neg hv]
          exact ih d hb
      | loop hc hb => exact S.repeated (ih d hc) (ih d hb) hfuel.pred 0
      | @declare x y e e' hx he =>
        refine .bind (ih d he) fun v => .bind ⟨S.declare d v hx, fun m => ?_⟩ fun _ => .pure rfl
        exact (extends_course.declare y v m).1
      | @assign x y e e' hx he =>
        refine .bind (ih d he) fun v => .bind ⟨S.assign d v hx, fun m => ?_⟩ fun _ => .pure rfl
        exact (extends_course.assign y v m).1
      | @var x y hx => exact ⟨S.lookup d hx, fun m => (extends_course.lookup y m).1⟩
      | print he =>
        refine .bind (ih d he) fun v => .bind ⟨S.print d v, extends_print v⟩ fun _ => .pure rfl
      | @define f g ps qs b b' hf hps hb =>
        have hfunction : K.functions ⟨f, ps, some b⟩ ⟨g, qs, some b'⟩ := ⟨hf, hps, .some hb⟩
        refine .bind ⟨S.define d hf hfunction, fun m => ?_⟩ fun _ => .pure rfl
        exact (extends_course.define g _ m).1
      | @call f g as bs hf has =>
        refine .bindRel ⟨S.lookupFunc d hf, fun m => (extends_course.lookupFunc g m).1⟩ ?_ ?_
        · exact fun G => extends_bind extends_check fun _ => extends_call o' fuel' G bs _
        · intro F G hF
          rw [hF.params.length_eq, has.length_eq]
          exact (InStep.bind ⟨S.check d, extends_check⟩ fun _ => S.call ih hF has _).agrees

/-- The runs of corresponding trees one after the other end alike. -/
theorem all (S : Simulation K o o') {fuel fuel' : Nat} (hfuel : K.Fuels fuel fuel') (d : Nat)
    {ts us : List (Option Tree)} (h : List.Forall₂ (Option.Rel K.trees) ts us) :
    InStep K d Eq (all o fuel ts) (all o' fuel' us) :=
  .inOrder h (fun _ _ => S.present (S.tree hfuel d)) 0

end Simulation

/-! ## The same code in the same scope -/

/-- A relation between machines that have the same scope, whatever the scope is. -/
structure SameScope (M : Machine → Machine → Prop) : Prop where
  chain : ∀ {a b}, M a b → b.chain = a.chain
  withChain : ∀ {a b} (c : Chain), M a b → M { a with chain := c } { b with chain := c }

section SameCode

variable (M : Machine → Machine → Prop) (cut : Halt → Prop) (lag : Lag)

/-- The same trees run in the same scope, on machines that are related by `M`. -/
def sameCode : Coupling where
  machines _ := M
  frames := Eq
  names _ := Eq
  trees := Eq
  halts := Eq
  cut := cut
  lag := lag

variable {M cut lag} {o o' : Options}

/-- For the same code in the same scope it is enough to look at what does not depend on the scope:
counting, asking, printing, and the calls. -/
theorem simulation_sameCode (hM : SameScope M)
    (hstep : ∀ d, Agrees (sameCode M cut lag) d Eq (step o) (step o'))
    (hcheck : ∀ d, Agrees (sameCode M cut lag) d Eq check check)
    (hprint : ∀ d v, Agrees (sameCode M cut lag) d Eq (print v) (print v))
    (henter : ∀ {a b} f n, M a b → M (enterBody o f n a) (enterBody o' f n b))
    (hleave : ∀ {a b}, M a b → M (leaveBody a) (leaveBody b))
    (hprinted : cut .outOfFuel → ∀ {a b}, M a b → lag.behind a b) :
    Simulation (sameCode M cut lag) o o' where
  trees := by
    rintro t _ rfl
    exact .refl t
  outOfFuel := rfl
  missingTree := rfl
  duplicate := by
    rintro x _ rfl
    rfl
  step := hstep
  check := hcheck
  lookup := by
    rintro d x _ rfl
    exact agrees_lookup rfl fun hab => congrArg (Chain.lookup? · x) (hM.chain hab)
  lookupFunc := by
    rintro d f _ rfl
    refine agrees_lookupFunc rfl fun hab => ?_
    rw [hM.chain hab]
    exact rel_refl Function.Alike.refl _
  declare := by
    rintro d x _ v rfl
    refine agrees_declare v rfl fun hab => ?_
    rw [hM.chain hab]
    exact rel_refl (fun c => hM.withChain c hab) _
  assign := by
    rintro d x _ v rfl
    refine agrees_assign v rfl fun hab => ?_
    rw [hM.chain hab]
    exact rel_refl (fun c => hM.withChain c hab) _
  define := by
    rintro d f _ F G rfl hF a b hab
    cases hF.eq
    unfold define
    rw [hM.chain hab]
    exact .ok rfl (hM.withChain _ hab)
  print := hprint
  child := by
    intro d a b hab
    show a.chain.child = b.chain.child
    rw [hM.chain hab]
  bind := by
    rintro f _ x _ v rfl rfl
    exact rel_refl Eq.refl _
  enter := by
    rintro d a b f _ hab rfl
    unfold enter
    rw [hM.chain hab]
    exact hM.withChain _ hab
  leave := by
    intro d a b hab
    unfold leave
    rw [hM.chain hab]
    exact hM.withChain _ hab
  enterBody := by
    rintro d a b f _ n hab rfl
    exact henter f n hab
  leaveBody := hleave
  printed hc hab := hprinted hc hab

end SameCode

end Eval

end TreeLang
