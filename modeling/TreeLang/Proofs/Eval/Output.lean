import TreeLang.Proofs.Scope.Discipline

/-!
# What a run prints

Printing puts a value after what was printed before, to one sink, and nothing else that a run does
touches the sinks. So whatever the machine has printed at some point is the beginning of what it has
printed at any later point (`Machine.Extends`, `Eval.extends_course`).
-/

set_option autoImplicit false

namespace TreeLang

/-! ## Sinks -/

namespace Sinks

theorem get_cons (m : Nat) (b : Sink) (r : Sinks) (k : Nat) :
    get ((m, b) :: r) k = if k = m then b else get r k := by
  unfold get
  rw [List.lookup_cons]
  by_cases h : k = m
  · rw [if_pos h, beq_iff_eq.2 h]
    rfl
  · rw [if_neg h, beq_eq_false_iff_ne.2 h]

/-- A sink that is put in a place is found there, and all others are as before. -/
theorem get_set (s : Sinks) (n k : Nat) (a : Sink) :
    (s.set n a).get k = if k = n then a else s.get k := by
  induction s with
  | nil => exact get_cons n a [] k
  | cons p r ih =>
    obtain ⟨m, b⟩ := p
    unfold set
    by_cases hm : m = n
    · subst hm
      rw [if_pos rfl, get_cons, get_cons]
      split <;> rfl
    · rw [if_neg hm, get_cons, get_cons, ih]
      by_cases hk : k = m
      · subst hk
        rw [if_pos rfl, if_pos rfl, if_neg hm]
      · rw [if_neg hk, if_neg hk]

/-- A relation between the sinks of each number stays, if the sinks that are put in are related. -/
theorem forall_get_set {P : Nat → Sink → Sink → Prop} {s t : Sinks}
    (hs : ∀ k, P k (s.get k) (t.get k)) {n : Nat} {a b : Sink} (hab : P n a b) (k : Nat) :
    P k ((s.set n a).get k) ((t.set n b).get k) := by
  rw [get_set, get_set]
  by_cases hk : k = n
  · rw [if_pos hk, if_pos hk, hk]
    exact hab
  · rw [if_neg hk, if_neg hk]
    exact hs k

end Sinks

/-- A value that is printed is the last one of the sink. -/
theorem Sink.print?_printed {s t : Sink} {v : Int64} (h : s.print? v = some t) :
    t.printed = v :: s.printed := by
  unfold Sink.print? at h
  split at h
  · cases h
    rfl
  · cases h
  · cases h
    rfl

/-- What is printed in addition is added to the text. -/
theorem Sink.text_of_printed {s t : Sink} {new : List Int64} (h : t.printed = new ++ s.printed) :
    t.text = s.text ++ new.reverse.flatMap Sink.line := by
  rw [Sink.text, Sink.text, h, List.reverse_append, List.flatMap_append]

/-- What was printed to a sink is a text with which the text of the sink starts from then on. -/
theorem Sink.text_prefix {s t : Sink} (h : s.printed <:+ t.printed) : s.text <+: t.text := by
  obtain ⟨later, h⟩ := h
  exact ⟨_, (Sink.text_of_printed h.symm).symm⟩

/-- Two sinks that take as many more lines: both take a value or both do not, and then they take as
many more lines again. -/
theorem Sink.print?_alike {s t : Sink} (h : t.room = s.room) (v : Int64) :
    Option.Rel (fun s' t' => s'.printed = v :: s.printed ∧ t'.printed = v :: t.printed ∧
      t'.room = s'.room) (s.print? v) (t.print? v) := by
  unfold Sink.print?
  rw [h]
  cases hroom : s.room with
  | none => exact .some ⟨rfl, rfl, rfl⟩
  | some k =>
    cases k with
    | zero => exact .none
    | succ k => exact .some ⟨rfl, rfl, rfl⟩

/-! ## Machines -/

namespace Machine

/-- The second machine has printed what the first one has, and perhaps more after it. -/
def Extends (a b : Machine) : Prop := ∀ k, (a.sinks.get k).printed <:+ (b.sinks.get k).printed

namespace Extends

/-- Where the sinks are the same, nothing is taken back. -/
theorem of_sinks {a b : Machine} (h : b.sinks = a.sinks) : Extends a b := by
  intro k
  exact h ▸ List.suffix_refl _

theorem refl (m : Machine) : Extends m m := of_sinks rfl

theorem trans {a b c : Machine} (h : Extends a b) (h' : Extends b c) : Extends a c :=
  fun k => (h k).trans (h' k)

/-- What was printed first is where the text starts. -/
theorem text_prefix {a b : Machine} (h : Extends a b) (k : Nat) :
    (a.sinks.get k).text <+: (b.sinks.get k).text :=
  Sink.text_prefix (h k)

end Extends

end Machine

/-! ## Runs -/

namespace Eval

open Machine (Extends)

variable {α β : Type}

/-- A relation that holds wherever the sinks and the checks stay the same is one that everything a
run does respects, along with the discipline of frames, if asking and printing do. -/
theorem course_of_same {R : Machine → Machine → Prop} (htrans : ∀ {a b c}, R a b → R b c → R a c)
    (hsame : ∀ {a b : Machine}, b.sinks = a.sinks → b.checks = a.checks → R a b)
    (hcheck : Moves R check) (hprint : ∀ v, Moves R (print v)) :
    Course fun a b => R a b ∧ Chain.Disciplined a.chain b.chain where
  refl m := ⟨hsame rfl rfl, disciplined_course.refl m⟩
  trans h k := ⟨htrans h.1 k.1, disciplined_course.trans h.2 k.2⟩
  sink h := disciplined_course.sink h.2
  step o m := by
    refine ⟨?_, disciplined_course.step o m⟩
    unfold step
    cases o.limit with
    | none => exact hsame rfl rfl
    | some n =>
      dsimp only
      split <;> exact hsame rfl rfl
  check m := ⟨hcheck m, disciplined_course.check m⟩
  declare x v m := by
    refine ⟨?_, disciplined_course.declare x v m⟩
    unfold declare
    split <;> exact hsame rfl rfl
  assign x v m := by
    refine ⟨?_, disciplined_course.assign x v m⟩
    unfold assign
    split <;> exact hsame rfl rfl
  define x f m := ⟨hsame rfl rfl, disciplined_course.define x f m⟩
  print v m := ⟨hprint v m, disciplined_course.print v m⟩
  frame {a b} f hf h := by
    have hin : R a (enter f a) := hsame rfl rfl
    have hout : R b (leave b) := hsame rfl rfl
    exact ⟨htrans (htrans hin h.1) hout, disciplined_course.frame f hf h.2⟩
  body {a b} o g n h := by
    have hin : R a (enterBody o g n a) := hsame rfl rfl
    have hout : R b (leaveBody b) := hsame rfl rfl
    exact ⟨htrans (htrans hin h.1) hout, disciplined_course.body o g n h.2⟩

/-- Asking prints nothing. -/
theorem extends_check : Moves Extends check := by
  intro m
  unfold check
  split <;> exact .of_sinks rfl

/-- Printing adds a line to one sink. -/
theorem extends_print (v : Int64) : Moves Extends (print v) := by
  intro m
  unfold print
  cases h : (m.sinks.get m.chain.sink).print? v with
  | none => exact .refl m
  | some s =>
    intro k
    show _ <:+ ((m.sinks.set m.chain.sink s).get k).printed
    rw [Sinks.get_set]
    by_cases hk : k = m.chain.sink
    · rw [if_pos hk, hk, Sink.print?_printed h]
      exact List.suffix_cons v _
    · simp only [if_neg hk]
      exact List.suffix_refl _

/-- A run only adds to what was printed. -/
theorem extends_course :
    Course fun a b => Extends a b ∧ Chain.Disciplined a.chain b.chain :=
  course_of_same (fun h k => h.trans k) (fun hs _ => .of_sinks hs) extends_check extends_print

/-- Counting prints nothing. -/
theorem extends_step (o : Options) : Moves Extends (step o) := fun m => (extends_course.step o m).1

/-- What comes after a run prints after what the run has printed. -/
theorem extends_final_bind {x : Eval α} {f : α → Eval β} (hf : ∀ v, Moves Extends (f v))
    (m : Machine) : Extends (final (x m)) (final ((x >>= f) m)) := by
  cases hx : x m with
  | ok v m' =>
    rw [bind_ok hx]
    exact hf v m'
  | error e m' =>
    rw [bind_error hx]
    exact .refl m'

/-- Two runs one after the other take back nothing if neither of them does. -/
theorem extends_bind {x : Eval α} {f : α → Eval β} (hx : Moves Extends x)
    (hf : ∀ v, Moves Extends (f v)) : Moves Extends (x >>= f) :=
  fun m => (hx m).trans (extends_final_bind hf m)

/-- Entering and leaving that print nothing. -/
theorem extends_around {before after : Machine → Machine} {x : Eval α} (hx : Moves Extends x)
    (hb : ∀ m, (before m).sinks = m.sinks) (ha : ∀ m, (after m).sinks = m.sinks) :
    Moves Extends (around before after x) := by
  intro m
  rw [around_final]
  exact ((Extends.of_sinks (hb m)).trans (hx _)).trans (.of_sinks (ha _))

/-- Every part of a run only adds to what was printed, whatever frames it is in. -/
def extending (o : Options) : Plain Notes.blank o where
  Holds _ x _ := Moves Extends x
  pure _ m := .refl m
  bind := extends_bind
  duplicate _ _ m := .refl m
  print := extends_print
  child hF m := hF m.chain.child trivial m
  inFrame _ hx := extends_around hx (fun _ => rfl) fun _ => rfl
  inBody hx := extends_around hx (fun _ => rfl) fun _ => rfl
  outOfFuel m := .refl m
  missing _ m := .refl m
  step _ := extends_step o
  check := extends_check
  lookup _ m := (extends_course.lookup _ m).1
  lookupFunc _ hF := extends_bind (fun m => (extends_course.lookupFunc _ m).1) fun g => hF g trivial
  declare v _ m := (extends_course.declare _ v m).1
  assign v _ m := (extends_course.assign _ v m).1
  define _ m := (extends_course.define _ _ m).1

/-- The run of a tree takes back nothing that was printed. -/
theorem extends_tree (o : Options) (fuel : Nat) (t : Tree) : Moves Extends (tree o fuel t) :=
  (extending o).logic.tree fuel () t trivial

/-- A loop takes back nothing if neither its test nor its body does. -/
theorem extends_repeated {test body : Eval Int64} (ht : Moves Extends test)
    (hb : Moves Extends body) (fuel : Nat) (last : Int64) :
    Moves Extends (repeated test body fuel last) := by
  have htest : (extending {}).Holds () test fun _ => [] := ht
  have hbody : (extending {}).Holds () body fun _ => [] := hb
  exact (extending {}).repeated htest hbody fuel last

/-- The trees of a sequence, in its frame. -/
theorem extends_seq (o : Options) (fuel : Nat) (ts : List Tree) :
    Moves Extends (do inFrame (← get).chain.child (inOrder (tree o fuel) ts 0)) := by
  have hts := (extending o).logic.inOrder (i := ())
    (fun t (_ : t ∈ ts) => (extending o).logic.tree fuel () t trivial) 0
  exact fun m => (extending o).inFrame trivial hts m

/-- The body of a function, in a frame. -/
theorem extends_body (o : Options) (fuel : Nat) (g : Function) (n : Nat) (f : Frame) :
    Moves Extends (inBody o g.name n (inFrame f (present (tree o fuel) g.body))) := by
  have hmay : (extending o).logic.MayRun () fuel g.body := trivial
  have hbody := (extending o).logic.present hmay fun u _ => (extending o).logic.tree fuel () u trivial
  exact (extending o).inBody ((extending o).inFrame trivial hbody)

/-- A call once its check is passed. -/
theorem extends_call (o : Options) (fuel : Nat) (g : Function) (args : List Tree) (n : Nat) :
    Moves Extends (do
      let frame ← bindArgs (tree o fuel) g.params args (← get).chain.child
      inBody o g.name n (inFrame frame (present (tree o fuel) g.body))) := by
  intro m
  have hcall := (extending o).logic.call (i := ()) (g := g) trivial trivial
    (fun _ t _ => (extending o).logic.tree fuel () t trivial) args (fun _ _ => trivial) n
    (f := m.chain.child) trivial
  exact hcall m

end Eval

end TreeLang
