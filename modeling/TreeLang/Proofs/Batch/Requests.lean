import TreeLang.Session.Basic
import Mathlib.Data.List.Basic

/-!
# The last request of a kind counts

The requests for an evaluation are met in their order, and each kind of them sets a part of its own.
So every part is as the last request of its kind wants it, or as it is from the start
(`Setup.ofRequests_eq`).

A batch asks for its own context before everything else. Where the caller asks for a context too,
that of the batch is not seen by the programs (`Batch.runWith_eq`). Hence a program is set up in a
batch as it is alone.
-/

set_option autoImplicit false

namespace TreeLang

namespace Request

/-- The limit on the visited trees that is asked for. -/
def limit? : Request → Option (Option Nat)
  | .maxSteps n => some (if 0 < n then some n.toNat else none)
  | .context _ | .logger _ => none

/-- The context that is asked for. -/
def context? : Request → Option (Option Nat)
  | .context checks => some checks
  | .maxSteps _ | .logger _ => none

/-- The logger that is asked for. -/
def logger? : Request → Option Bool
  | .logger recorded => some recorded
  | .maxSteps _ | .context _ => none

/-- What the last request of a kind asks for, or else a default. -/
def last {α : Type} (kind? : Request → Option α) (default : α) (rs : List Request) : α :=
  (rs.filterMap kind?).getLast?.getD default

variable {α : Type} {kind? : Request → Option α} {default a : α} {r : Request} {rs : List Request}

/-- What a request asks for is the default for those behind it. -/
theorem last_cons : last kind? default (r :: rs) = last kind? ((kind? r).getD default) rs := by
  unfold last
  cases h : kind? r with
  | none => rw [List.filterMap_cons_none h, Option.getD_none]
  | some a => rw [List.filterMap_cons_some h, List.getLast?_cons, Option.getD_some, Option.getD_some]

/-- Where something is asked for, the default is not seen. -/
theorem last_eq_of_mem {default' : α} (hr : r ∈ rs) (h : kind? r = some a) :
    last kind? default rs = last kind? default' rs := by
  have hne : rs.filterMap kind? ≠ [] := List.ne_nil_of_mem (List.mem_filterMap.2 ⟨r, hr, h⟩)
  rw [last, last, List.getLast?_eq_some_getLast hne, Option.getD_some, Option.getD_some]

end Request

namespace Setup

open Request (last limit? context? logger?)

/-- Meeting requests one after the other leaves, of every part, what the last request of its kind
asks for. -/
theorem foldl_meet (s : Setup) (rs : List Request) :
    rs.foldl meet s =
      ⟨⟨last limit? s.options.limit rs, last logger? s.options.recorded rs⟩,
        last context? s.checks rs⟩ := by
  induction rs generalizing s with
  | nil => rfl
  | cons r rs ih =>
    rw [List.foldl_cons, ih]
    simp only [Request.last_cons]
    cases r <;> rfl

/-- Every part of a setup is as the last request of its kind wants it. -/
theorem ofRequests_eq (rs : List Request) :
    ofRequests rs = ⟨⟨last limit? none rs, last logger? false rs⟩, last context? none rs⟩ :=
  foldl_meet {} rs

/-- A context that is asked for first is not seen where another one is asked for. -/
theorem ofRequests_context_cons {rs : List Request} {c c' : Option Nat} (h : .context c' ∈ rs) :
    ofRequests (.context c :: rs) = ofRequests rs := by
  rw [ofRequests_eq, ofRequests_eq]
  simp only [Request.last_cons]
  exact congrArg (Setup.mk _) (Request.last_eq_of_mem h rfl)

/-- The settings of a command ask for everything. -/
theorem ofRequests_requests (s : EvalSettings) (canceled : Bool) :
    ofRequests (s.requests canceled) = ⟨s.options, checksWhen canceled⟩ := rfl

end Setup

/-- The programs of a batch see the context that the caller asks for, and not that of the batch. -/
theorem Batch.runWith_eq {rs : List Request} {c : Option Nat} (h : .context c ∈ rs) (canceled : Bool)
    (ps : List Program) :
    Batch.runWith rs canceled ps =
      Batch.run (Setup.ofRequests rs).options canceled (Setup.ofRequests rs).checks ps := by
  rw [Batch.runWith, Setup.ofRequests_context_cons h]

/-- With the settings of a command, a batch runs its programs as they are run alone. -/
theorem Batch.runWith_requests (s : EvalSettings) (canceled : Bool) (ps : List Program) :
    Batch.runWith (s.requests canceled) canceled ps =
      Batch.run s.options canceled (checksWhen canceled) ps := by
  have hcontext : .context (checksWhen canceled) ∈ s.requests canceled := List.mem_cons_self
  rw [Batch.runWith_eq hcontext, Setup.ofRequests_requests]

/-- A program that is run with the requests of some settings runs with the options of the
settings. -/
theorem Program.runWith_requests (s : EvalSettings) (canceled : Bool) (p : Program) :
    p.runWith (s.requests canceled) = p.run s.options (checksWhen canceled) := by
  rw [Program.runWith, Setup.ofRequests_requests]

end TreeLang
