import TreeLang.Proofs.Eval.Course

/-!
# Recorded calls are nested

The calls of a run form a forest. A call has inside it the calls that are made while its body is in
progress, and the calls among its arguments stand beside it, before it: they are over when the body
is entered. `Eval.callsAll` gives this forest for a run, read off the way the run takes and without
the machine's own count of bodies.

The machine counts the bodies that it is in, and every run leaves the count as it was, with a value
or not. So the record of a call has the level of the call in the forest as its depth, and the
records of a run list the forest from the left, every call in front of what is inside it
(`evalAll_nested`).
-/

set_option autoImplicit false

namespace TreeLang

/-- A call of a run: the name of the function, the number of arguments that were bound, and the
calls that are made while its body is in progress. -/
inductive CallTree where
  | node (func : Text) (args : Nat) (inside : List CallTree)

namespace CallTree

mutual

/-- The records of a call that is the given number of bodies deep, its own body counted, and of the
calls inside it. -/
def records (depth : Nat) : CallTree → List CallRecord
  | .node func args inside => ⟨func, args, depth⟩ :: recordsAll (depth + 1) inside

/-- The records of calls one after the other. -/
def recordsAll (depth : Nat) : List CallTree → List CallRecord
  | [] => []
  | t :: ts => t.records depth ++ recordsAll depth ts

end

theorem recordsAll_append (depth : Nat) (ts us : List CallTree) :
    recordsAll depth (ts ++ us) = recordsAll depth ts ++ recordsAll depth us := by
  induction ts with
  | nil => rfl
  | cons t ts ih => simp [recordsAll, ih]

/-! ## The depths of records -/

/-- From one record to the next the depth goes up by at most one. -/
def Climbs (r s : CallRecord) : Prop := s.depth ≤ r.depth + 1

/-- Records that start at a depth, never come below it, and climb one body at a time. -/
structure StartsAt (depth : Nat) (log : List CallRecord) : Prop where
  first : ∀ r ∈ log.head?, r.depth = depth
  above : ∀ r ∈ log, depth ≤ r.depth
  climbs : log.IsChain Climbs

theorem StartsAt.nil (depth : Nat) : StartsAt depth [] := ⟨by simp, by simp, .nil⟩

/-- The record of a call comes in front of those of the calls inside it. -/
theorem StartsAt.cons {depth : Nat} {log : List CallRecord} (h : StartsAt (depth + 1) log) (func : Text)
    (args : Nat) : StartsAt depth (⟨func, args, depth⟩ :: log) := by
  refine ⟨by simp, ?_, ?_⟩
  · rintro r hr
    rcases List.mem_cons.1 hr with rfl | hr
    · exact Nat.le_refl depth
    · exact Nat.le_of_succ_le (h.above r hr)
  · apply List.isChain_cons.2
    refine ⟨fun r hr => ?_, h.climbs⟩
    exact Nat.le_of_eq (h.first r hr)

/-- Calls one after the other start at the same depth, which the earlier ones never come below. -/
theorem StartsAt.append {depth : Nat} {log rest : List CallRecord} (h : StartsAt depth log)
    (h' : StartsAt depth rest) : StartsAt depth (log ++ rest) := by
  refine ⟨?_, ?_, ?_⟩
  · cases log with
    | nil => exact h'.first
    | cons r log => exact h.first
  · intro r hr
    rcases List.mem_append.1 hr with hr | hr
    · exact h.above r hr
    · exact h'.above r hr
  · apply List.isChain_append.2
    refine ⟨h.climbs, h'.climbs, fun r hr s hs => ?_⟩
    -- the later records start again at the depth that the earlier ones never came below
    have hfirst := h'.first s hs
    have habove := h.above r (List.mem_of_getLast? hr)
    rw [Climbs]
    omega

mutual

/-- The records of a call start at its depth. -/
theorem startsAt_records (depth : Nat) : (t : CallTree) → StartsAt depth (t.records depth)
  | .node func args inside => by
    rw [records]
    exact (startsAt_recordsAll (depth + 1) inside).cons func args

/-- The records of calls one after the other start at the depth of the first one. -/
theorem startsAt_recordsAll (depth : Nat) : (ts : List CallTree) →
    StartsAt depth (recordsAll depth ts)
  | [] => .nil depth
  | t :: ts => by
    rw [recordsAll]
    exact (startsAt_records depth t).append (startsAt_recordsAll depth ts)

end

end CallTree

/-- Every function body is noted as a call, with the calls inside it. -/
def Notes.calls : Notes CallTree := ⟨fun _ _ => [], fun func args inside => [.node func args inside]⟩

namespace Eval

variable {α β : Type} {o : Options}

/-! ## The calls of a run -/

/-- The calls of a run of trees one after the other. -/
def callsAll (o : Options) (fuel : Nat) (ts : List (Option Tree)) (m : Machine) : List CallTree :=
  Notes.calls.all o fuel ts m

/-! ## What a run records -/

/-- The records that calls leave which are the given number of bodies deep, first ones first. -/
def log (o : Options) (depth : Nat) (made : List CallTree) : List CallRecord :=
  if o.recorded then CallTree.recordsAll depth made else []

@[simp] theorem log_nil (o : Options) (depth : Nat) : log o depth [] = [] := by
  simp [log, CallTree.recordsAll]

/-- Calls one after the other leave their records one after the other. -/
theorem log_append (o : Options) (depth : Nat) (made more : List CallTree) :
    log o depth (made ++ more) = log o depth made ++ log o depth more := by
  by_cases ho : o.recorded
  · simp [log, ho, CallTree.recordsAll_append]
  · simp [log, ho]

/-- What a run logs starts at the depth it is at. -/
theorem startsAt_log (o : Options) (depth : Nat) (made : List CallTree) :
    CallTree.StartsAt depth (log o depth made) := by
  by_cases ho : o.recorded
  · simp only [log, ho, if_true]
    exact CallTree.startsAt_recordsAll depth made
  · simp only [log, ho]
    exact .nil depth

/-- From every machine, a run leaves the depth as it was and records the calls that are made in it,
at the depths they have there. -/
def Logs (o : Options) (x : Eval α) (made : Machine → List CallTree) : Prop :=
  ∀ m, (final (x m)).depth = m.depth ∧
    (final (x m)).calls = (log o (m.depth + 1) (made m)).reverse ++ m.calls

/-- A run leaves the depth and the records as they were. -/
def Unlogged (x : Eval α) : Prop :=
  ∀ m, (final (x m)).depth = m.depth ∧ (final (x m)).calls = m.calls

/-! ### What makes no call -/

theorem unlogged_step (o : Options) : Unlogged (step o) := by
  intro m
  cases ho : o.limit with
  | none => simp [step, ho, final]
  | some n =>
    simp only [step, ho]
    split <;> exact ⟨rfl, rfl⟩

theorem unlogged_check : Unlogged check := by
  intro m
  rw [check]
  split <;> exact ⟨rfl, rfl⟩

theorem unlogged_lookup (x : Text) : Unlogged (lookup x) := by
  intro m
  rw [lookup]
  split <;> exact ⟨rfl, rfl⟩

theorem unlogged_lookupFunc (x : Text) : Unlogged (lookupFunc x) := by
  intro m
  rw [lookupFunc]
  split <;> exact ⟨rfl, rfl⟩

theorem unlogged_declare (x : Text) (v : Int64) : Unlogged (declare x v) := by
  intro m
  rw [declare]
  split <;> exact ⟨rfl, rfl⟩

theorem unlogged_assign (x : Text) (v : Int64) : Unlogged (assign x v) := by
  intro m
  rw [assign]
  split <;> exact ⟨rfl, rfl⟩

theorem unlogged_define (x : Text) (f : Function) : Unlogged (define x f) := fun _ => ⟨rfl, rfl⟩

theorem unlogged_print (v : Int64) : Unlogged (print v) := by
  intro m
  rw [print]
  split <;> exact ⟨rfl, rfl⟩

namespace Logs

variable {made : Machine → List CallTree}

/-- What records nothing makes no calls. -/
theorem of_unlogged {x : Eval α} (hx : Unlogged x) : Logs o x fun _ => [] := by
  intro m
  rw [log_nil]
  exact hx m

/-! ### Runs one after the other -/

/-- The second run starts at the depth that the first one has left, which is the depth before it. -/
theorem bind {x : Eval α} {f : α → Eval β} {next : α → Machine → List CallTree}
    (hx : Logs o x made) (hf : ∀ a, Logs o (f a) (next a)) :
    Logs o (x >>= f) fun m => made m ++ thereafter (x m) next := by
  intro m
  obtain ⟨hdepth, hcalls⟩ := hx m
  cases hr : x m with
  | error e m' =>
    rw [hr] at hdepth hcalls
    simp only [bind_error hr, hr, thereafter_error, List.append_nil]
    exact ⟨hdepth, hcalls⟩
  | ok a m' =>
    rw [hr] at hdepth hcalls
    obtain ⟨hdepth', hcalls'⟩ := hf a m'
    have hd : m'.depth = m.depth := hdepth
    have hc : m'.calls = (log o (m.depth + 1) (made m)).reverse ++ m.calls := hcalls
    rw [hd, hc] at hcalls'
    simp only [bind_ok hr, hr, thereafter_ok]
    refine ⟨hdepth'.trans hd, ?_⟩
    rw [hcalls', log_append, List.reverse_append, List.append_assoc]

/-! ### Frames and bodies -/

/-- A frame does not change the depth. -/
theorem inFrame {x : Eval α} (hx : Logs o x made) (f : Frame) :
    Logs o (inFrame f x) fun m => made (enter f m) := by
  intro m
  rw [inFrame_eq, around_final]
  exact hx (enter f m)

/-- The record of a call comes before those of the calls inside it, which are one body deeper. The
count goes back when the body is left, whichever way. -/
theorem inBody {x : Eval α} (hx : Logs o x made) (func : Text) (args : Nat) :
    Logs o (inBody o func args x) fun m =>
      [.node func args (made (enterBody o func args m))] := by
  intro m
  obtain ⟨hdepth, hcalls⟩ := hx (enterBody o func args m)
  rw [inBody_eq, around_final]
  constructor
  · show (final (x (enterBody o func args m))).depth - 1 = m.depth
    rw [hdepth]
    rfl
  · show (final (x (enterBody o func args m))).calls = _
    rw [hcalls]
    by_cases ho : o.recorded
    · simp [log, ho, enterBody, CallTree.recordsAll, CallTree.records]
    · simp [log, ho, enterBody]

/-- Every part of a run records the calls that are made in it. Arguments are evaluated before the
body is entered, so at the depth of the caller. -/
def plain (o : Options) : Plain Notes.calls o where
  Holds _ x made := Logs o x made
  pure _ := of_unlogged fun _ => ⟨rfl, rfl⟩
  bind := bind
  duplicate _ _ := of_unlogged fun _ => ⟨rfl, rfl⟩
  print v := of_unlogged (unlogged_print v)
  child hF m := hF m.chain.child trivial m
  inFrame _ hx := inFrame hx _
  inBody hx := inBody hx _ _
  outOfFuel := of_unlogged fun _ => ⟨rfl, rfl⟩
  missing _ := of_unlogged fun _ => ⟨rfl, rfl⟩
  step _ := of_unlogged (unlogged_step o)
  check := of_unlogged unlogged_check
  lookup _ := of_unlogged (unlogged_lookup _)
  lookupFunc _ hF := bind (of_unlogged (unlogged_lookupFunc _)) fun g => hF g trivial
  declare v _ := of_unlogged (unlogged_declare _ v)
  assign v _ := of_unlogged (unlogged_assign _ v)
  define _ := of_unlogged (unlogged_define _ _)

/-- A run of a tree records the calls that are made in it. -/
theorem tree (fuel : Nat) (t : Tree) : Logs o (tree o fuel t) (Notes.calls.tree o fuel t) :=
  (plain o).logic.tree fuel () t trivial

/-- A run of trees one after the other records the calls that are made in it. -/
theorem all (fuel : Nat) (ts : List (Option Tree)) : Logs o (all o fuel ts) (callsAll o fuel ts) :=
  (plain o).logic.all fuel () fun _ _ => trivial

end Logs

end Eval

/-- What an evaluation records is nested. Every run of a tree, from any machine and whether it ends
with a value or not, leaves the count of function bodies as it was. The records that an evaluation
adds are those of its calls, where the depth of a call is the number of bodies in progress with its
own. So the first record has depth one, and every other one a depth from one up to one more than the
depth before it. All this holds for every fuel, so for runs without end as well. -/
theorem evalAll_nested (o : Options) (ts : List (Option Tree)) (m : Machine) :
    (∀ fuel t a, (Eval.final (Eval.tree o fuel t a)).depth = a.depth) ∧
      (Eval.final (evalAll o ts m)).calls =
        (Eval.log o 1 (Eval.callsAll o o.fuel ts m.restarted)).reverse ++ m.calls ∧
      ∀ fuel,
        let added := Eval.log o 1 (Eval.callsAll o fuel ts m.restarted)
        (Eval.final (Eval.all o fuel ts m.restarted)).calls = added.reverse ++ m.calls ∧
          (∀ r ∈ added.head?, r.depth = 1) ∧
          added.IsChain fun r s => 1 ≤ s.depth ∧ s.depth ≤ r.depth + 1 := by
  have hall : ∀ fuel, (Eval.final (Eval.all o fuel ts m.restarted)).calls =
      (Eval.log o 1 (Eval.callsAll o fuel ts m.restarted)).reverse ++ m.calls :=
    fun fuel => (Eval.Logs.all fuel ts m.restarted).2
  refine ⟨fun fuel t a => (Eval.Logs.tree fuel t a).1, hall o.fuel, fun fuel => ?_⟩
  have hstarts := Eval.startsAt_log o 1 (Eval.callsAll o fuel ts m.restarted)
  refine ⟨hall fuel, hstarts.first, ?_⟩
  apply List.isChain_iff_getElem.2
  intro i hi
  refine ⟨hstarts.above _ (List.getElem_mem hi), ?_⟩
  exact List.isChain_iff_getElem.1 hstarts.climbs i hi

end TreeLang
