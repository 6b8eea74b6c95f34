import TreeLang.Proofs.Eval.Simulation
import TreeLang.Proofs.Scope.Functions

/-!
# Runs of code that obeys a rule

Dynamic scoping lets any function run anywhere, and functions are defined while a run goes on. But
all that ever runs comes from the trees at hand and from the functions that were bound at the start.
So if their names obey a rule, then so do those of all code that runs later. It is enough, then, to
know what reading and writing do for names that obey the rule: to two scopes side by side
(`ScopeRelation`, `Eval.simulation_obedient`), or to the frames of one scope (`Effect`,
`Effect.all`).
-/

set_option autoImplicit false

namespace TreeLang

variable {P : Role → Text → Prop}

/-! ## Code beside itself -/

/-- A tree that obeys a rule, beside itself: its names and the trees inside obey the rule. -/
theorem Tree.alike_of_obeys {t : Tree} (h : t.Obeys P) :
    Tree.Alike (fun r x y => x = y ∧ P r x) (fun t u => t = u ∧ t.Obeys P) t t := by
  have hall : ∀ ts : List Tree, (∀ n ∈ usesAll ts, P n.1 n.2) →
      List.Forall₂ (fun t u => t = u ∧ t.Obeys P) ts ts :=
    fun ts hts => List.forall₂_same.2 fun t ht => ⟨rfl, obeys_usesAll hts t ht⟩
  unfold Tree.Obeys at h
  cases t with
  | none => exact .none
  | literal v => exact .literal v
  | binary op a b =>
    simp only [uses, List.forall_mem_append] at h
    exact .binary op ⟨rfl, h.1⟩ ⟨rfl, h.2⟩
  | seq ts => exact .seq (hall ts h)
  | cond c a b =>
    simp only [uses, List.forall_mem_append] at h
    exact .cond ⟨rfl, h.1.1⟩ ⟨rfl, h.1.2⟩ ⟨rfl, h.2⟩
  | loop c b =>
    simp only [uses, List.forall_mem_append] at h
    exact .loop ⟨rfl, h.1⟩ ⟨rfl, h.2⟩
  | declare x e =>
    simp only [uses, List.forall_mem_cons] at h
    exact .declare ⟨rfl, h.1⟩ ⟨rfl, h.2⟩
  | assign x e =>
    simp only [uses, List.forall_mem_cons] at h
    exact .assign ⟨rfl, h.1⟩ ⟨rfl, h.2⟩
  | var x =>
    simp only [uses, List.forall_mem_singleton] at h
    exact .var ⟨rfl, h⟩
  | print e => exact .print ⟨rfl, h⟩
  | define f ps b =>
    simp only [uses, List.forall_mem_cons, List.forall_mem_append, List.forall_mem_map] at h
    exact .define ⟨rfl, h.1⟩ (List.forall₂_same.2 fun x hx => ⟨rfl, h.2.1 x hx⟩) ⟨rfl, h.2.2⟩
  | call f args =>
    simp only [uses, List.forall_mem_cons] at h
    exact .call ⟨rfl, h.1⟩ (hall args h.2)

/-- A function corresponds to itself if it obeys the rule, and to no other one. -/
theorem Function.alike_obeys_iff (f g : Function) :
    Function.Alike (fun r x y => x = y ∧ P r x) (fun t u => t = u ∧ t.Obeys P) f g ↔
      f = g ∧ f.Obeys P := by
  rw [Function.obeys_iff]
  obtain ⟨name, params, body⟩ := f
  obtain ⟨name', params', body'⟩ := g
  constructor
  · rintro ⟨⟨rfl, hname⟩, hparams, hbody⟩
    have hsame : params = params' := by
      have heq : List.Forall₂ Eq params params' := hparams.imp fun _ _ h => h.1
      rwa [List.forall₂_eq_eq_eq] at heq
    subst hsame
    have hps : ∀ x ∈ params, P .param x := fun x hx => (List.forall₂_same.1 hparams x hx).2
    cases hbody with
    | none => exact ⟨rfl, hname, hps, by simp⟩
    | some h =>
      obtain ⟨rfl, hb⟩ := h
      exact ⟨rfl, hname, hps, by simpa using hb⟩
  · rintro ⟨h, hname, hps, hb⟩
    cases h
    refine ⟨⟨rfl, hname⟩, List.forall₂_same.2 fun x hx => ⟨rfl, hps x hx⟩, ?_⟩
    cases body with
    | none => exact .none
    | some b => exact .some ⟨rfl, hb b rfl⟩

/-! ## Two scopes side by side -/

/-- Scopes that are related by `S`, inside so many frames that were entered, answer alike to names
that obey the rule, and stay related when they are written to by such names. The frames that are
entered are related by `F`. -/
structure ScopeRelation (P : Role → Text → Prop) (S : Nat → Chain → Chain → Prop)
    (F : Frame → Frame → Prop) : Prop where
  lookup : ∀ {d c c' x}, S d c c' → P .read x → c'.lookup? x = c.lookup? x
  lookupFunc : ∀ {d c c'} x, S d c c' → c'.lookupFunc? x = c.lookupFunc? x
  declare : ∀ {d c c' x} v, S d c c' → P .declared x →
    Option.Rel (S d) (c.declare? x v) (c'.declare? x v)
  assign : ∀ {d c c' x} v, S d c c' → P .assigned x →
    Option.Rel (S d) (c.assign? x v) (c'.assign? x v)
  define : ∀ {d c c'} x g, S d c c' → S d (c.defineFunc x g) (c'.defineFunc x g)
  sink : ∀ {d c c'}, S d c c' → c'.sink = c.sink
  child : ∀ {d c c'}, S d c c' → F c.child c'.child
  bind : ∀ {f f' x} v, F f f' → P .param x → Option.Rel F (f.declare? x v) (f'.declare? x v)
  enter : ∀ {d c c' f f'}, S d c c' → F f f' → S (d + 1) (f :: c) (f' :: c')
  leave : ∀ {d c c'}, S (d + 1) c c' → S d c.tail c'.tail

namespace Eval

variable {S : Nat → Chain → Chain → Prop} {F : Frame → Frame → Prop}

/-- Two machines that differ in their scopes at most, which are related, and of which the functions
obey the rule. -/
def Obedient (P : Role → Text → Prop) (S : Nat → Chain → Chain → Prop) (d : Nat) (a b : Machine) :
    Prop :=
  ∃ c, b = { a with chain := c } ∧ S d a.chain c ∧ a.chain.EachFunc (Function.Obeys P)

/-- The same code runs in related scopes, and its names obey the rule. -/
def obedient (P : Role → Text → Prop) (S : Nat → Chain → Chain → Prop) (F : Frame → Frame → Prop) :
    Coupling where
  machines := Obedient P S
  frames f g := F f g ∧ f.EachFunc (Function.Obeys P)
  names r x y := x = y ∧ P r x
  trees t u := t = u ∧ t.Obeys P
  halts := Eq
  cut _ := False

/-- Code that obeys a rule does the same in scopes that answer alike to names that obey it. A
function that is bound obeys the rule as well, and so does what runs next. -/
theorem simulation_obedient (R : ScopeRelation P S F) (o : Options) :
    Simulation (obedient P S F) o o where
  trees := by
    rintro t _ ⟨rfl, ht⟩
    exact Tree.alike_of_obeys ht
  outOfFuel := rfl
  missingTree := rfl
  duplicate := by
    rintro x _ ⟨rfl, -⟩
    rfl
  step := by
    intro d
    apply agrees_step 0
    · exact Option.map_id_apply.symm
    · exact fun _ => rfl
    · rintro a _ ⟨c, rfl, hS, hfuncs⟩
      exact ⟨rfl, fun _ => ⟨c, rfl, hS, hfuncs⟩⟩
  check := by
    intro d
    apply agrees_check rfl
    rintro a _ ⟨c, rfl, hS, hfuncs⟩
    exact ⟨rfl, fun _ => ⟨c, rfl, hS, hfuncs⟩⟩
  lookup := by
    rintro d x _ ⟨rfl, hx⟩
    apply agrees_lookup rfl
    rintro a _ ⟨c, rfl, hS, -⟩
    exact R.lookup hS hx
  lookupFunc := by
    rintro d f _ ⟨rfl, -⟩
    apply agrees_lookupFunc rfl
    rintro a _ ⟨c, rfl, hS, hfuncs⟩
    rw [R.lookupFunc f hS]
    cases hf : a.chain.lookupFunc? f with
    | none => exact .none
    | some g =>
      -- a function that is bound obeys the rule, so what runs next does too
      have hg : g.Obeys P := hfuncs.lookupFunc? hf
      exact .some ((Function.alike_obeys_iff g g).2 ⟨rfl, hg⟩)
  declare := by
    rintro d x _ v ⟨rfl, hx⟩
    apply agrees_declare v rfl
    rintro a _ ⟨c, rfl, hS, hfuncs⟩
    exact rel_imp (R.declare v hS hx) fun hc hS' => ⟨_, rfl, hS', hfuncs.declare? hc⟩
  assign := by
    rintro d x _ v ⟨rfl, hx⟩
    apply agrees_assign v rfl
    rintro a _ ⟨c, rfl, hS, hfuncs⟩
    exact rel_imp (R.assign v hS hx) fun hc hS' => ⟨_, rfl, hS', hfuncs.assign? hc⟩
  define := by
    rintro d f _ A B ⟨rfl, -⟩ hA a _ ⟨c, rfl, hS, hfuncs⟩
    obtain ⟨rfl, hobeys⟩ := (Function.alike_obeys_iff A B).1 hA
    exact .ok rfl ⟨_, rfl, R.define f A hS, hfuncs.defineFunc hobeys⟩
  print := by
    intro d v
    apply agrees_print v rfl
    rintro a _ ⟨c, rfl, hS, hfuncs⟩
    rw [R.sink hS]
    exact rel_refl (fun _ => ⟨c, rfl, hS, hfuncs⟩) _
  child := by
    rintro d a _ ⟨c, rfl, hS, -⟩
    exact ⟨R.child hS, a.chain.eachFunc_child⟩
  bind := by
    rintro f g x _ v ⟨hF, hfuncs⟩ ⟨rfl, hx⟩
    exact rel_imp (R.bind v hF hx) fun hf hF' => ⟨hF', hfuncs.declare? hf⟩
  enter := by
    rintro d a _ f g ⟨c, rfl, hS, hfuncs⟩ ⟨hF, hf⟩
    exact ⟨g :: c, rfl, R.enter hS hF, hfuncs.cons hf⟩
  leave := by
    rintro d a _ ⟨c, rfl, hS, hfuncs⟩
    exact ⟨c.tail, rfl, R.leave hS, hfuncs.tail⟩
  enterBody := by
    rintro d a _ f _ n ⟨c, rfl, hS, hfuncs⟩ ⟨rfl, -⟩
    exact ⟨c, rfl, hS, hfuncs⟩
  leaveBody := by
    rintro d a _ ⟨c, rfl, hS, hfuncs⟩
    exact ⟨c, rfl, hS, hfuncs⟩
  printed h := h.elim

/-- The run of code that obeys a rule, in two scopes that are related: it ends alike, and the scopes
are still related. -/
theorem all_obedient (R : ScopeRelation P S F) (o : Options) (fuel : Nat) {ts : List (Option Tree)}
    (hts : ∀ t, some t ∈ ts → t.Obeys P) {m : Machine} {c : Chain} (hS : S 0 m.chain c)
    (hfuncs : m.chain.EachFunc (Function.Obeys P)) :
    outcomeOf (all o fuel ts { m with chain := c }) = outcomeOf (all o fuel ts m) ∧
      Obedient P S 0 (final (all o fuel ts m)) (final (all o fuel ts { m with chain := c })) := by
  have hrel : List.Forall₂ (Option.Rel (obedient P S F).trees) ts ts := by
    refine List.forall₂_same.2 fun t ht => ?_
    cases t with
    | none => exact .none
    | some t => exact .some ⟨rfl, hts t ht⟩
  have hall := (simulation_obedient R o).all (Or.inl (Eq.refl fuel)) 0 hrel
  have hagree := hall.agrees (a := m) (b := { m with chain := c }) ⟨c, rfl, hS, hfuncs⟩
  exact hagree.uncut (fun _ h => h) fun h => h

end Eval

/-! ## The frames of one scope -/

/-- What becomes of a frame when it is written to by names that obey the rule: `R` relates the frame
before to the frame after. -/
structure Effect (P : Role → Text → Prop) (R : Frame → Frame → Prop) : Prop where
  refl : ∀ f, R f f
  trans : ∀ {f g h}, R f g → R g h → R f h
  declare : ∀ {f g x v}, P .declared x → f.declare? x v = some g → R f g
  assign : ∀ {f x} v, P .assigned x → f.vars.binds x → R f { f with vars := f.vars.set x v }
  define : ∀ f x g, R f { f with funcs := f.funcs.set x g }

namespace Effect

variable {R : Frame → Frame → Prop}

theorem refl_chain (E : Effect P R) (c : Chain) : List.Forall₂ R c c :=
  List.forall₂_same.2 fun f _ => E.refl f

/-- A declaration by a name that obeys the rule has the effect on every frame. -/
theorem declare? (E : Effect P R) {c d : Chain} {x : Text} {v : Int64} (hx : P .declared x)
    (h : c.declare? x v = some d) : List.Forall₂ R c d := by
  cases c with
  | nil => cases h
  | cons f up =>
    obtain ⟨g, hg, rfl⟩ := Option.map_eq_some_iff.1 h
    exact .cons (E.declare hx hg) (E.refl_chain up)

/-- An assignment to a name that obeys the rule has the effect on every frame. -/
theorem assign? (E : Effect P R) {c d : Chain} {x : Text} {v : Int64} (hx : P .assigned x)
    (h : c.assign? x v = some d) : List.Forall₂ R c d := by
  induction c generalizing d with
  | nil => cases h
  | cons f up ih =>
    rw [Chain.assign?] at h
    by_cases hf : f.vars.binds x
    · rw [if_pos hf] at h
      cases h
      exact .cons (E.assign v hx hf) (E.refl_chain up)
    · rw [if_neg hf] at h
      obtain ⟨up', hup, rfl⟩ := Option.map_eq_some_iff.1 h
      exact .cons (E.refl f) (ih hup)

theorem replaceFunc? (E : Effect P R) {c d : Chain} {x : Text} {g : Function}
    (h : c.replaceFunc? x g = some d) : List.Forall₂ R c d := by
  induction c generalizing d with
  | nil => cases h
  | cons f up ih =>
    rw [Chain.replaceFunc?] at h
    by_cases hf : f.funcs.binds x
    · rw [if_pos hf] at h
      cases h
      exact .cons (E.define f x g) (E.refl_chain up)
    · rw [if_neg hf] at h
      obtain ⟨up', hup, rfl⟩ := Option.map_eq_some_iff.1 h
      exact .cons (E.refl f) (ih hup)

/-- A definition has the effect on every frame. -/
theorem defineFunc (E : Effect P R) (c : Chain) (x : Text) (g : Function) :
    List.Forall₂ R c (c.defineFunc x g) := by
  rw [Chain.defineFunc]
  cases h : c.replaceFunc? x g with
  | some d => exact E.replaceFunc? h
  | none =>
    cases c with
    | nil => exact .nil
    | cons f up => exact .cons (E.define f x g) (E.refl_chain up)

/-- A scope beside itself: the frames that were there at the start are those below which so many
were entered. -/
def Since (R : Frame → Frame → Prop) (start : Chain) (d : Nat) (c c' : Chain) : Prop :=
  c = c' ∧ List.Forall₂ R start (c.drop d)

/-- Writing to frames adds to what became of them since the start. -/
theorem since_of_forall₂ (E : Effect P R) {start c e : Chain} {d : Nat}
    (h : List.Forall₂ R start (c.drop d)) (hce : List.Forall₂ R c e) : Since R start d e e :=
  ⟨rfl, Chain.forall₂_trans h (List.forall₂_drop d hce) E.trans⟩

/-- Since the start, the frames that were there have changed by the effect only. Frames that were
entered later are not among them, and are dropped first. -/
theorem scopeRelation (E : Effect P R) (start : Chain) : ScopeRelation P (Since R start) Eq where
  lookup := by
    rintro d c _ x ⟨rfl, -⟩ -
    rfl
  lookupFunc := by
    rintro d c _ x ⟨rfl, -⟩
    rfl
  declare := by
    rintro d c _ x v ⟨rfl, h⟩ hx
    cases hc : c.declare? x v with
    | none => exact .none
    | some e => exact .some (E.since_of_forall₂ h (E.declare? hx hc))
  assign := by
    rintro d c _ x v ⟨rfl, h⟩ hx
    cases hc : c.assign? x v with
    | none => exact .none
    | some e => exact .some (E.since_of_forall₂ h (E.assign? hx hc))
  define := by
    rintro d c _ x g ⟨rfl, h⟩
    exact E.since_of_forall₂ h (E.defineFunc c x g)
  sink := by
    rintro d c _ ⟨rfl, -⟩
    rfl
  child := by
    rintro d c _ ⟨rfl, -⟩
    rfl
  bind := by
    rintro f _ x v rfl -
    exact rel_refl Eq.refl _
  enter := by
    rintro d c _ f _ ⟨rfl, h⟩ rfl
    exact ⟨rfl, h⟩
  leave := by
    rintro d c _ ⟨rfl, h⟩
    refine ⟨rfl, ?_⟩
    rwa [List.drop_tail]

/-- What becomes of the frames of a scope in a run of code that obeys the rule. -/
theorem all (E : Effect P R) (o : Options) (fuel : Nat) {ts : List (Option Tree)}
    (hts : ∀ t, some t ∈ ts → t.Obeys P) {m : Machine}
    (hfuncs : m.chain.EachFunc (Function.Obeys P)) :
    List.Forall₂ R m.chain (Eval.final (Eval.all o fuel ts m)).chain := by
  have hrun := Eval.all_obedient (E.scopeRelation m.chain) o fuel hts (c := m.chain)
    ⟨rfl, E.refl_chain m.chain⟩ hfuncs
  obtain ⟨-, c, -, ⟨-, h⟩, -⟩ := hrun
  exact h

end Effect

end TreeLang
