import TreeLang.Batch.Schedule
import TreeLang.Proofs.Eval.Cancellation

/-!
# Schedules of a batch

What becomes of a program in a batch does not depend on the schedule. As long as the context of the
caller is not done, no worker and no program is ever refused, so each program ends as it does alone.
Once it is done, each worker is refused before its program runs, or its program ends as it does
alone with some number of checks; and the batch fails (`Batch.schedule_results`).

All this is an invariant of the batch at work (`Group.Sound`) that every turn preserves. Every turn
also brings the batch closer to its end (`Group.rank_turn`), and before it has returned there is
always a turn of a worker or of the batch itself (`Group.exists_turn`). So no schedule goes on
for ever, and none gets stuck before the batch returns. A program without an end is out of fuel at
some time, so it is no exception.
-/

set_option autoImplicit false

namespace TreeLang

/-! ## Programs -/

/-- If there is no end to the checks, no run changes that. -/
theorem Eval.unending_course :
    Course fun a b => (a.checks = none → b.checks = none) ∧
      Chain.Disciplined a.chain b.chain := by
  apply course_of_same
  · exact fun h k hc => k (h hc)
  · exact fun _ hchecks hc => hchecks.trans hc
  · intro m hc
    have hr : check m = .ok () m := by simp [check, hc]
    rw [hr]
    exact hc
  · intro v m hc
    unfold print
    split <;> exact hc

namespace Program

variable (o : Options) (p : Program)

/-- A program that was let go on so many times asks again. -/
abbrev AsksAgain (k : Nat) : Prop := (p.run o (some k)).1.halt = some (.error .canceled)

/-- The result of a program, from the end of its run. -/
def resultOf : EStateM.Result Halt Machine Int64 → Result
  | .ok v m => ⟨p.name, v, (m.sinks.get 0).text, none⟩
  | .error h m => ⟨p.name, 0, (m.sinks.get 0).text, some h⟩

/-- What a run of a program is told by is read off the way its trees end. -/
theorem run_fst (checks : Option Nat) :
    (p.run o checks).1 = p.resultOf (evalAll o p.trees (p.start checks)) := by
  unfold run
  cases evalAll o p.trees (p.start checks) <;> rfl

theorem name_run (checks : Option Nat) : (p.run o checks).1.name = p.name := by
  rw [run_fst]
  cases evalAll o p.trees (p.start checks) <;> rfl

/-- A run of a program leaves the machine that its trees leave. -/
theorem run_snd (checks : Option Nat) :
    (p.run o checks).2 = Eval.final (evalAll o p.trees (p.start checks)) := by
  unfold run
  cases evalAll o p.trees (p.start checks) <;> rfl

/-- A program without an end to its checks leaves them so. -/
theorem checks_run : (p.run o none).2.checks = none := by
  rw [run_snd]
  exact (Eval.unending_course.all o o.fuel p.trees (p.start none).restarted).1 rfl

theorem resultOf_unchecked (r : EStateM.Result Halt Machine Int64) :
    p.resultOf (unchecked r) = p.resultOf r := by
  cases r <;> rfl

theorem halt_resultOf (r : EStateM.Result Halt Machine Int64) :
    (p.resultOf r).halt = haltOf r := by
  cases r <;> rfl

/-- A program asks once more than `k` times if it is canceled with `k` checks. -/
theorem asksAgain_iff (k : Nat) :
    p.AsksAgain o k ↔ Canceled (evalAll o p.trees (p.start (some k))) := by
  rw [AsksAgain, run_fst, halt_resultOf]

/-- Checks only ever cut the run of a program short. -/
theorem cutByChecks : CutByChecks fun checks => evalAll o p.trees (p.start checks) :=
  Eval.all_cutByChecks o o.fuel p.trees (p.start none).restarted

variable {o p}

/-- A program that does not ask again has the result it has alone. -/
theorem run_eq_of_not_asksAgain {k : Nat} (h : ¬ p.AsksAgain o k) :
    (p.run o (some k)).1 = (p.run o none).1 := by
  rw [asksAgain_iff] at h
  have halike := ((p.cutByChecks o).alike h).2
  rw [run_fst, run_fst, ← resultOf_unchecked, ← halike, resultOf_unchecked]

/-- Who asks more often than `k` times asks more often than any fewer times. -/
theorem AsksAgain.of_le {j k : Nat} (h : p.AsksAgain o k) (hj : j ≤ k) : p.AsksAgain o j := by
  rw [asksAgain_iff] at h ⊢
  exact (p.cutByChecks o).fewer h j hj

variable (o p)

/-- No program asks without end. -/
theorem exists_not_asksAgain : ∃ k, ¬ p.AsksAgain o k := by
  obtain ⟨k, hk⟩ := Eval.all_enough o o.fuel p.trees (p.start none).restarted
  exact ⟨k, fun h => hk ((p.asksAgain_iff o k).1 h)⟩

/-- How many times a program asks that is always let go on. -/
def asks : Nat := Nat.find (p.exists_not_asksAgain o)

variable {o p}

/-- A program that asks again has not asked as often as it does in all. -/
theorem AsksAgain.lt_asks {k : Nat} (h : p.AsksAgain o k) : k < p.asks o := by
  by_contra hk
  exact Nat.find_spec (p.exists_not_asksAgain o) (h.of_le (Nat.le_of_not_lt hk))

end Program

namespace Batch

variable {o : Options} {limit : Int} {ps : List Program}

/-! ## What a turn does -/

/-- The turns of a worker. -/
inductive Job.Worked (o : Options) (stop : Bool) (j : Job) : Job → Prop
  | refused : j.worker = .started → stop = true → Worked o stop j { j with worker := .refused }
  | begun : j.worker = .started → stop = false → Worked o stop j { j with worker := .running 0 }
  | passed {k : Nat} : j.worker = .running k → j.program.AsksAgain o k → stop = false →
      Worked o stop j { j with worker := .running (k + 1) }
  | ended {k : Nat} : j.worker = .running k → (j.program.AsksAgain o k → stop = true) →
      Worked o stop j { j with worker := .ended, result := (j.program.run o (some k)).1 }

/-- A worker does one of the things that workers do. -/
theorem Job.worked {stop : Bool} {j j' : Job} (h : j.work o stop = some j') :
    Worked o stop j j' := by
  unfold Job.work at h
  cases hw : j.worker with
  | idle => simp [hw] at h
  | refused => simp [hw] at h
  | ended => simp [hw] at h
  | started =>
    simp only [hw, Option.some.injEq] at h
    subst h
    cases stop with
    | false => exact .begun hw rfl
    | true => exact .refused hw rfl
  | running k =>
    simp only [hw] at h
    by_cases hasks : j.program.AsksAgain o k ∧ stop = false
    · rw [if_pos hasks] at h
      cases h
      exact .passed hw hasks.1 hasks.2
    · rw [if_neg hasks] at h
      cases h
      -- the program has ended, or it asks again and is refused
      refine .ended hw fun hk => ?_
      by_contra hs
      exact hasks ⟨hk, Bool.eq_false_of_not_eq_true hs⟩

/-- A worker that was started and has not left can go on. -/
theorem Job.exists_work {j : Job} (h : j.worker.active) (stop : Bool) :
    ∃ j', j.work o stop = some j' := by
  unfold Job.work
  cases hw : j.worker with
  | idle => simp [hw, Worker.active] at h
  | refused => simp [hw, Worker.active] at h
  | ended => simp [hw, Worker.active] at h
  | started => exact ⟨_, rfl⟩
  | running k =>
    by_cases hasks : j.program.AsksAgain o k ∧ stop = false
    · exact ⟨_, if_pos hasks⟩
    · exact ⟨_, if_neg hasks⟩

namespace Group

/-- The turns of a batch at work. -/
inductive Moved (o : Options) (limit : Int) (g : Group) : Turn → Group → Prop
  | cancel : g.canceled = false → Moved o limit g .cancel { g with canceled := true }
  | stop : g.stopped = false → (g.canceled ∨ g.failed ∨ g.waited) →
      Moved o limit g .stop { g with stopped := true }
  | start {i : Nat} {j : Job} : g.jobs[i]? = some j → j.worker = .idle → g.hasPlace limit →
      Moved o limit g (.start i) (g.setJob i { j with worker := .started })
  | work {i : Nat} {j j' : Job} : g.jobs[i]? = some j → j.work o g.stopped = some j' →
      Moved o limit g (.work i) (g.setJob i j')
  | wait : g.waited = false → (∀ j ∈ g.jobs, j.worker.gone) →
      Moved o limit g .wait { g with waited := true }
  | leave : g.waited → Moved o limit g .leave { g with returned := some (g.failed || g.canceled) }

/-- A turn can be taken as long as the batch has not returned and the turn has its own condition
met. -/
theorem turn_eq_some_iff {g g' : Group} {t : Turn} :
    g.turn o limit t = some g' ↔ g.returned = none ∧ Moved o limit g t g' := by
  constructor
  · intro h
    unfold turn at h
    rw [Option.ite_none_left_eq_some, Option.not_isSome_iff_eq_none] at h
    -- each turn has its own condition, which the definition checks first
    obtain ⟨hr, h⟩ := h
    refine ⟨hr, ?_⟩
    cases t with
    | cancel =>
      simp only [Option.ite_none_left_eq_some, Bool.not_eq_true, Option.some.injEq] at h
      obtain ⟨hc, rfl⟩ := h
      exact .cancel hc
    | stop =>
      simp only [Option.ite_none_right_eq_some, Option.some.injEq] at h
      obtain ⟨⟨hs, hwhy⟩, rfl⟩ := h
      exact .stop hs hwhy
    | start i =>
      simp only [Option.bind_eq_bind, Option.bind_eq_some_iff, Option.ite_none_right_eq_some,
        Option.some.injEq] at h
      obtain ⟨j, hj, ⟨hidle, hplace⟩, rfl⟩ := h
      exact .start hj hidle hplace
    | work i =>
      simp only [Option.bind_eq_bind, Option.bind_eq_some_iff, Option.some.injEq] at h
      obtain ⟨j, hj, j', hwork, rfl⟩ := h
      exact .work hj hwork
    | wait =>
      simp only [Option.ite_none_right_eq_some, Option.some.injEq, List.all_eq_true] at h
      obtain ⟨⟨hw, hgone⟩, rfl⟩ := h
      exact .wait hw hgone
    | leave =>
      simp only [Option.ite_none_right_eq_some, Option.some.injEq] at h
      obtain ⟨hw, rfl⟩ := h
      exact .leave hw
  · rintro ⟨hr, h⟩
    unfold turn
    rw [if_neg (Option.not_isSome_iff_eq_none.2 hr)]
    cases h with
    | cancel hc => simp [hc]
    | stop hs hwhy => exact if_pos ⟨hs, hwhy⟩
    | start hj hidle hplace => simp [hj, hidle, hplace]
    | work hj hwork => simp [hj, hwork]
    | wait hw hgone => exact if_pos ⟨hw, List.all_eq_true.2 hgone⟩
    | leave hw => exact if_pos hw

/-- What every turn preserves, a schedule does. -/
theorem run_preserves {P : Group → Prop}
    (hturn : ∀ {g g' t}, P g → g.turn o limit t = some g' → P g') {g g' : Group} (hg : P g)
    {ts : List Turn} (h : g.run o limit ts = some g') : P g' := by
  induction ts generalizing g with
  | nil =>
    cases h
    exact hg
  | cons t ts ih =>
    obtain ⟨g₁, ht, hts⟩ := Option.bind_eq_some_iff.1 h
    exact ih (hturn hg ht) hts

end Group

/-! ## What every turn preserves -/

/-- What is known of a job, by whether the context of the caller is done. -/
structure Job.Sound (o : Options) (canceled : Bool) (j : Job) : Prop where
  /-- As long as it is not, no worker is refused, and programs end as they do alone. -/
  alone : canceled = false →
    j.worker ≠ .refused ∧ (j.worker = .ended → j.result = (j.program.run o none).1)
  /-- In any case a result is that of a program which was let go on some number of times. -/
  stored : j.result = {} ∨ ∃ k, j.result = (j.program.run o (some k)).1

/-- Once the caller has canceled, a result is still that of some run of the program. -/
theorem Job.Sound.canceled {c : Bool} {j : Job} (h : j.Sound o c) : j.Sound o true :=
  ⟨fun hc => absurd hc (by decide), h.stored⟩

/-- A turn of a worker, which is told to stop only if the context of the caller is done. -/
theorem Job.Sound.work {c stop : Bool} {j j' : Job} (h : j.Sound o c)
    (hstop : stop = true → c = true) (hw : Worked o stop j j') : j'.Sound o c := by
  cases hw with
  | refused _ hs =>
    refine ⟨fun hc => ?_, h.stored⟩
    rw [hstop hs] at hc
    cases hc
  | begun => exact ⟨fun _ => ⟨by simp, by simp⟩, h.stored⟩
  | passed => exact ⟨fun _ => ⟨by simp, by simp⟩, h.stored⟩
  | @ended k _ hasks =>
    refine ⟨fun hc => ⟨by simp, fun _ => ?_⟩, Or.inr ⟨k, rfl⟩⟩
    apply Program.run_eq_of_not_asksAgain
    intro hk
    rw [hstop (hasks hk)] at hc
    cases hc

/-- A worker keeps its program. -/
theorem Job.Worked.program {stop : Bool} {j j' : Job} (h : Worked o stop j j') :
    j'.program = j.program := by
  cases h <;> rfl

/-- Only a worker that is at work does something. -/
theorem Job.Worked.active {stop : Bool} {j j' : Job} (h : Worked o stop j j') :
    j.worker.active = true := by
  cases h with
  | refused hw => rw [hw]; rfl
  | begun hw => rw [hw]; rfl
  | passed hw => rw [hw]; rfl
  | ended hw => rw [hw]; rfl

theorem Worker.not_gone_of_active {w : Worker} (h : w.active) : w.gone = false := by
  cases w with
  | idle => cases h
  | started => rfl
  | running k => rfl
  | refused => cases h
  | ended => cases h

namespace Group

/-- What is known of a batch at work. -/
structure Sound (o : Options) (ps : List Program) (g : Group) : Prop where
  programs : g.jobs.map (·.program) = ps
  jobs : ∀ j ∈ g.jobs, j.Sound o g.canceled
  stopped : g.stopped → g.canceled ∨ g.waited
  waited : g.waited → ∀ j ∈ g.jobs, j.worker.gone
  returned : ∀ e, g.returned = some e → g.waited ∧ e = g.canceled

namespace Sound

variable {g g' : Group}

/-- The group is sound before its first turn. -/
theorem ofPrograms (o : Options) (ps : List Program) : Sound o ps (ofPrograms ps) where
  programs := by
    rw [Group.ofPrograms, List.map_map]
    exact List.map_id ps
  jobs := by
    intro j hj
    obtain ⟨p, -, rfl⟩ := List.mem_map.1 hj
    exact ⟨fun _ => ⟨by simp, by simp⟩, Or.inl rfl⟩
  stopped h := by cases h
  waited h := by cases h
  returned e h := by cases h

/-- A worker fails only if the context of the caller is done. -/
theorem canceled_of_failed (h : Sound o ps g) (hf : g.failed) : g.canceled := by
  -- the worker that failed was refused, and that is known to happen then only
  obtain ⟨j, hj, hw⟩ := List.any_eq_true.1 hf
  by_contra hc
  exact ((h.jobs j hj).alone (by simpa using hc)).1 (by simpa using hw)

/-- The turn of one worker that has not left. -/
theorem setJob (h : Sound o ps g) (hr : g.returned = none) {i : Nat} {j j' : Job}
    (hi : g.jobs[i]? = some j) (hgone : j.worker.gone = false) (hp : j'.program = j.program)
    (hj' : j'.Sound o g.canceled) : Sound o ps (g.setJob i j') := by
  have hmem : j ∈ g.jobs := List.mem_of_getElem? hi
  have hnot : ¬ g.waited := fun hw => by
    rw [h.waited hw j hmem] at hgone
    cases hgone
  constructor
  · obtain ⟨hlt, hj⟩ := List.getElem?_eq_some_iff.1 hi
    have hset : g.jobs.set i j = g.jobs := by rw [← hj, List.set_getElem_self]
    rw [Group.setJob, List.map_set, hp, ← List.map_set, hset, h.programs]
  · intro k hk
    rcases List.mem_or_eq_of_mem_set hk with hk | rfl
    · exact h.jobs k hk
    · exact hj'
  · exact h.stopped
  · exact fun hw => absurd hw hnot
  · intro e he
    rw [Group.setJob, hr] at he
    cases he

/-- Every turn keeps a group sound. The batch has not waited yet, so a group stops only because of
the caller. -/
theorem turn (h : Sound o ps g) {t : Turn} (ht : g.turn o limit t = some g') : Sound o ps g' := by
  obtain ⟨hr, ht⟩ := turn_eq_some_iff.1 ht
  cases ht with
  | cancel hc =>
    refine ⟨h.programs, fun j hj => (h.jobs j hj).canceled, fun _ => Or.inl rfl, h.waited, ?_⟩
    intro e he
    rw [hr] at he
    cases he
  | stop _ hwhy =>
    refine ⟨h.programs, h.jobs, fun _ => ?_, h.waited, h.returned⟩
    rcases hwhy with hc | hf | hw
    · exact Or.inl hc
    · exact Or.inl (h.canceled_of_failed hf)
    · exact Or.inr hw
  | @start i j hi hidle _ =>
    have hj := h.jobs j (List.mem_of_getElem? hi)
    apply h.setJob hr hi
    · rw [hidle]
      rfl
    · rfl
    · exact ⟨fun _ => ⟨by simp, by simp⟩, hj.stored⟩
  | @work i j j' hi hwork =>
    have hworked := Job.worked hwork
    have hnot := Worker.not_gone_of_active hworked.active
    have hmem := List.mem_of_getElem? hi
    apply h.setJob hr hi hnot hworked.program
    -- the batch has not waited yet, so the group stops only because of the caller
    refine (h.jobs j hmem).work (fun hs => ?_) hworked
    rcases h.stopped hs with hc | hw
    · exact hc
    · have hgone := h.waited hw j hmem
      rw [hnot] at hgone
      cases hgone
  | wait _ hgone =>
    refine ⟨h.programs, h.jobs, fun _ => Or.inr rfl, fun _ => hgone, ?_⟩
    intro e he
    rw [hr] at he
    cases he
  | leave hw =>
    refine ⟨h.programs, h.jobs, h.stopped, h.waited, ?_⟩
    rintro _ ⟨⟩
    refine ⟨hw, ?_⟩
    cases hf : g.failed with
    | false => exact Bool.false_or _
    | true => rw [h.canceled_of_failed hf, Bool.or_true]

end Sound

/-- Before the batch has returned there is a turn of a worker or of the batch itself. -/
theorem exists_turn (o : Options) (limit : Int) {g : Group} (hr : g.returned = none) :
    ∃ t g', t ≠ .cancel ∧ t ≠ .stop ∧ g.turn o limit t = some g' := by
  have hturn : ∀ {t g'}, Moved o limit g t g' → g.turn o limit t = some g' :=
    fun hm => turn_eq_some_iff.2 ⟨hr, hm⟩
  by_cases hw : g.waited
  · exact ⟨.leave, _, by simp, by simp, hturn (.leave hw)⟩
  by_cases hgone : ∀ j ∈ g.jobs, j.worker.gone
  · exact ⟨.wait, _, by simp, by simp, hturn (.wait (by simpa using hw) hgone)⟩
  by_cases hactive : ∃ j ∈ g.jobs, j.worker.active
  · obtain ⟨j, hj, hactive⟩ := hactive
    obtain ⟨i, hi⟩ := List.mem_iff_getElem?.1 hj
    obtain ⟨j', hj'⟩ := Job.exists_work (o := o) hactive g.stopped
    exact ⟨.work i, _, by simp, by simp, hturn (.work hi hj')⟩
  -- nobody is at work, so all places are free, and somebody was not started yet
  push Not at hgone hactive
  obtain ⟨j, hj, hnot⟩ := hgone
  obtain ⟨i, hi⟩ := List.mem_iff_getElem?.1 hj
  have hidle : j.worker = .idle := by
    have hinactive := hactive j hj
    cases hworker : j.worker <;> simp_all [Worker.gone, Worker.active]
  have hplace : g.hasPlace limit := by
    have hnone : g.active = 0 := List.countP_eq_zero.2 hactive
    simp only [hasPlace, hnone, decide_eq_true_eq]
    omega
  exact ⟨.start i, _, by simp, by simp, hturn (.start hi hidle hplace)⟩

end Group

/-! ## How far a batch is from its end -/

/-- How many turns of its worker a job needs at most. -/
def Job.rank (o : Options) (j : Job) : Nat :=
  match j.worker with
  | .idle => j.program.asks o + 3
  | .started => j.program.asks o + 2
  | .running k => j.program.asks o - k + 1
  | .refused | .ended => 0

/-- Whatever a worker does, its job comes closer to its end. -/
theorem Job.Worked.rank_lt {stop : Bool} {j j' : Job} (h : Worked o stop j j') :
    j'.rank o < j.rank o := by
  unfold Job.rank
  cases h with
  | refused hw => simp [hw]
  | begun hw => simp [hw]
  | @passed k hw hasks =>
    -- a program that asks again has not asked as often as it ever will
    have hk : k < j.program.asks o := hasks.lt_asks
    simp only [hw]
    omega
  | ended hw => simp [hw]

namespace Group

/-- How many turns a batch needs at most. -/
def rank (o : Options) (g : Group) : Nat :=
  (g.jobs.map (Job.rank o)).sum + (!g.canceled).toNat + (!g.stopped).toNat + (!g.waited).toNat +
    (!g.returned.isSome).toNat

theorem sum_rank_setJob {g : Group} {i : Nat} {j j' : Job} (hi : g.jobs[i]? = some j)
    (hlt : j'.rank o < j.rank o) :
    ((g.jobs.set i j').map (Job.rank o)).sum < (g.jobs.map (Job.rank o)).sum := by
  generalize g.jobs = jobs at hi
  induction jobs generalizing i with
  | nil => cases hi
  | cons k jobs ih =>
    cases i with
    | zero =>
      cases hi
      simp only [List.set_cons_zero, List.map_cons, List.sum_cons]
      omega
    | succ i =>
      have hrest := ih hi
      simp only [List.set_cons_succ, List.map_cons, List.sum_cons]
      omega

/-- Whatever turn is taken, the group comes closer to its end. -/
theorem rank_turn {g g' : Group} {t : Turn} (h : g.turn o limit t = some g') :
    g'.rank o < g.rank o := by
  obtain ⟨hr, h⟩ := turn_eq_some_iff.1 h
  unfold rank
  cases h with
  | cancel hc => simp [hc]
  | stop hs => simp [hs]
  | @start i j hi hidle =>
    have hlt : Job.rank o { j with worker := .started } < j.rank o := by simp [Job.rank, hidle]
    have hsum := sum_rank_setJob hi hlt
    simp only [setJob]
    omega
  | work hi hwork =>
    have hsum := sum_rank_setJob hi (Job.worked hwork).rank_lt
    simp only [setJob]
    omega
  | wait hw => simp [hw]
  | leave => simp [hr]

/-- A schedule has no more turns than the batch needs at most. -/
theorem length_add_rank_le {g g' : Group} {ts : List Turn} (h : g.run o limit ts = some g') :
    ts.length + g'.rank o ≤ g.rank o := by
  induction ts generalizing g with
  | nil =>
    cases h
    simp
  | cons t ts ih =>
    obtain ⟨g₁, ht, hts⟩ := Option.bind_eq_some_iff.1 h
    have hlt := rank_turn ht
    have hle := ih hts
    rw [List.length_cons]
    omega

/-- A batch can come to its end while the context of the caller is not done. -/
theorem exists_schedule (o : Options) (limit : Int) (g : Group) :
    ∃ ts g' failed, .cancel ∉ ts ∧ g.run o limit ts = some g' ∧ g'.returned = some failed := by
  induction hn : g.rank o using Nat.strong_induction_on generalizing g with
  | _ n ih =>
    cases hr : g.returned with
    | some failed => exact ⟨[], g, failed, List.not_mem_nil, rfl, hr⟩
    | none =>
      obtain ⟨t, g₁, hcancel, -, ht⟩ := exists_turn o limit hr
      obtain ⟨ts, g', failed, hts, hrun, hr'⟩ := ih (g₁.rank o) (hn ▸ rank_turn ht) g₁ rfl
      refine ⟨t :: ts, g', failed, ?_, Option.bind_eq_some_iff.2 ⟨g₁, ht, hrun⟩, hr'⟩
      rw [List.mem_cons, not_or]
      exact ⟨hcancel.symm, hts⟩

end Group

/-! ## Schedules -/

namespace Group

/-- A group is canceled by the caller only, and stays so. -/
theorem canceled_turn {g g' : Group} {t : Turn} (h : g.turn o limit t = some g') :
    g'.canceled = (g.canceled || t = .cancel) := by
  obtain ⟨-, h⟩ := turn_eq_some_iff.1 h
  cases h <;> simp [setJob]

/-- The context of the caller is done if the schedule has its turn. -/
theorem canceled_run {g g' : Group} {ts : List Turn} (h : g.run o limit ts = some g') :
    g'.canceled = (g.canceled || Turn.cancel ∈ ts) := by
  induction ts generalizing g with
  | nil =>
    cases h
    simp
  | cons t ts ih =>
    obtain ⟨g₁, ht, hts⟩ := Option.bind_eq_some_iff.1 h
    rw [ih hts, canceled_turn ht]
    simp [Bool.or_assoc, eq_comm]

/-- The results of a batch that has returned. -/
theorem Sound.results {g : Group} (h : Sound o ps g) {failed : Bool}
    (hr : g.returned = some failed) : failed = g.canceled ∧
      List.Forall₂ (fun p r => (g.canceled = false → r = (p.run o none).1) ∧
        (r = {} ∨ ∃ k, r = (p.run o (some k)).1)) ps g.results := by
  obtain ⟨hw, he⟩ := h.returned failed hr
  refine ⟨he, ?_⟩
  rw [← h.programs, Group.results, List.forall₂_map_left_iff, List.forall₂_map_right_iff,
    List.forall₂_same]
  intro j hj
  refine ⟨fun hc => ?_, (h.jobs j hj).stored⟩
  obtain ⟨hrefused, hended⟩ := (h.jobs j hj).alone hc
  have hgone := h.waited hw j hj
  apply hended
  cases hworker : j.worker <;> simp_all [Worker.gone]

/-- If the context of the caller is not done, the programs have the results they have alone. -/
theorem results_eq_alone {g : Group} {ts : List Turn} {failed : Bool} (hcancel : .cancel ∉ ts)
    (h : (ofPrograms ps).run o limit ts = some g) (hr : g.returned = some failed) :
    failed = false ∧ g.results = ps.map fun p => (p.run o none).1 := by
  have hsound : Sound o ps g := run_preserves (fun hg ht => hg.turn ht) (Sound.ofPrograms o ps) h
  obtain ⟨hfailed, hresults⟩ := hsound.results hr
  have hc : g.canceled = false := by
    rw [canceled_run h, decide_eq_false hcancel]
    rfl
  exact ⟨hfailed.trans hc, (forall₂_eq_map_iff _ _ _).1 (hresults.imp fun _ _ h => h.1 hc)⟩

theorem active_setJob {g : Group} {i : Nat} {j : Job} (hi : g.jobs[i]? = some j) (j' : Job) :
    (g.setJob i j').active + j.worker.active.toNat = g.active + j'.worker.active.toNat := by
  obtain ⟨hlt, rfl⟩ := List.getElem?_eq_some_iff.1 hi
  unfold active setJob
  have hpos : (g.jobs[i]).worker.active → 0 < g.jobs.countP (·.worker.active) := fun h =>
    List.countP_pos_iff.2 ⟨_, List.getElem_mem hlt, h⟩
  rw [List.countP_set hlt]
  cases hj : (g.jobs[i]).worker.active <;> cases hj' : j'.worker.active <;> simp_all

/-- No turn brings more workers to work than there are places. -/
theorem active_turn {g g' : Group} {t : Turn} (h : g.turn o limit t = some g') (hlimit : 0 < limit)
    (hg : g.active ≤ limit) : g'.active ≤ limit := by
  obtain ⟨-, h⟩ := turn_eq_some_iff.1 h
  cases h with
  | cancel => exact hg
  | stop => exact hg
  | @start i j hi hidle hplace =>
    have hset := active_setJob hi { j with worker := .started }
    have hlt : (g.active : Int) < limit := by
      simp only [hasPlace, decide_eq_true_eq] at hplace
      omega
    simp only [hidle, Worker.active, Bool.toNat_true, Bool.toNat_false] at hset
    omega
  | @work i j j' hi hwork =>
    have hset := active_setJob hi j'
    have hle := Bool.toNat_le j'.worker.active
    rw [(Job.worked hwork).active, Bool.toNat_true] at hset
    omega
  | wait => exact hg
  | leave => exact hg

/-- The group is stopped, and no program has run. -/
structure Untouched (g : Group) : Prop where
  stopped : g.stopped = true
  jobs : ∀ j ∈ g.jobs, j.result = {} ∧ ∀ k, j.worker ≠ .running k

/-- A job that has not run may take the place of another one. -/
theorem Untouched.setJob {g : Group} (h : Untouched g) (i : Nat) {j : Job}
    (hj : j.result = {} ∧ ∀ k, j.worker ≠ .running k) : Untouched (g.setJob i j) := by
  refine ⟨h.stopped, fun k hk => ?_⟩
  rcases List.mem_or_eq_of_mem_set hk with hk | rfl
  · exact h.jobs k hk
  · exact hj

/-- In a stopped group no turn makes a program run. -/
theorem Untouched.turn {g g' : Group} (h : Untouched g) {t : Turn}
    (ht : g.turn o limit t = some g') : Untouched g' := by
  obtain ⟨-, ht⟩ := turn_eq_some_iff.1 ht
  cases ht with
  | cancel => exact ⟨h.stopped, h.jobs⟩
  | stop => exact ⟨rfl, h.jobs⟩
  | @start i j hi =>
    exact h.setJob i ⟨(h.jobs j (List.mem_of_getElem? hi)).1, by simp⟩
  | @work i j j' hi hwork =>
    obtain ⟨hresult, hworker⟩ := h.jobs j (List.mem_of_getElem? hi)
    apply h.setJob
    have hstopped := h.stopped
    cases Job.worked hwork with
    | refused => exact ⟨hresult, by simp⟩
    | begun _ hs =>
      rw [hs] at hstopped
      cases hstopped
    | passed hw => exact absurd hw (hworker _)
    | ended hw => exact absurd hw (hworker _)
  | wait => exact ⟨h.stopped, h.jobs⟩
  | leave => exact ⟨h.stopped, h.jobs⟩

/-- A batch whose group is stopped before any worker starts runs no program. -/
theorem results_of_stopped {g : Group} {ts : List Turn}
    (h : (ofPrograms ps).run o limit (.cancel :: .stop :: ts) = some g) :
    g.results = ps.map fun _ => {} := by
  have hstart : Untouched { ofPrograms ps with canceled := true, stopped := true } := by
    refine ⟨rfl, fun j hj => ?_⟩
    obtain ⟨p, -, rfl⟩ := List.mem_map.1 hj
    exact ⟨rfl, by simp⟩
  have hend : Untouched g := run_preserves (fun hg ht => hg.turn ht) hstart h
  have hsound : Sound o ps g := run_preserves (fun hg ht => hg.turn ht) (Sound.ofPrograms o ps) h
  rw [← hsound.programs, List.map_map]
  exact List.map_congr_left fun j hj => (hend.jobs j hj).1

end Group

/-- Programs that run one after the other, with no end to the checks. -/
theorem results_runEach (o : Options) (ps : List Program) :
    (runEach o none ps).results = ps.map fun p => (p.run o none).1 := by
  induction ps with
  | nil => rfl
  | cons p ps ih =>
    unfold runEach
    simp only [p.checks_run o, ih, List.map_cons]

/-- A batch that was started is not canceled before it starts. -/
theorem canceled_runEach (o : Options) (checks : Option Nat) (ps : List Program) :
    (runEach o checks ps).canceled = false := by
  induction ps generalizing checks with
  | nil => rfl
  | cons p ps ih => exact ih _

/-- The outcome of a batch does not depend on its schedule: on the order in which the workers start,
take their turns and leave, within the limit. If the context of the caller is never done, the batch
returns without an error, and the result of every program is the one it has alone, in a root and
with a step limit of its own; so the outcome is that of running the programs one after the other. If
the context becomes done before the batch returns, the batch returns with an error, and every result
is empty or the one the program has alone if it is canceled after some number of checks; and if the
group learns of that before any worker starts, then no program runs.

The batch returns: no schedule is longer than some number of turns, and before the batch has returned
a worker or the batch itself can go on, whatever the contexts do. -/
theorem schedule_results (o : Options) (ps : List Program) (limit : Int) :
    (∃ bound, ∀ ts g, (Group.ofPrograms ps).run o limit ts = some g →
      ts.length ≤ bound ∧ (0 < limit → g.active ≤ limit) ∧
        (g.returned = none → ∃ t g', t ≠ .cancel ∧ t ≠ .stop ∧ g.turn o limit t = some g')) ∧
    ∀ ts g failed, (Group.ofPrograms ps).run o limit ts = some g → g.returned = some failed →
      (.cancel ∉ ts → failed = false ∧ g.results = (ps.map fun p => (p.run o none).1) ∧
        g.results = (Batch.run o false none ps).results) ∧
      (.cancel ∈ ts → failed = true ∧
        List.Forall₂ (fun p r => r = {} ∨ ∃ k, r = (p.run o (some k)).1) ps g.results) ∧
      (∀ rest, ts = .cancel :: .stop :: rest →
        g.results = (Batch.run o true none ps).results) := by
  constructor
  · refine ⟨(Group.ofPrograms ps).rank o, fun ts g h => ⟨?_, fun hlimit => ?_, fun hr => ?_⟩⟩
    · have hle := Group.length_add_rank_le h
      omega
    · refine Group.run_preserves (fun hg ht => Group.active_turn ht hlimit hg) ?_ h
      have hnone : (Group.ofPrograms ps).active = 0 := by
        simp [Group.active, Group.ofPrograms, Worker.active]
      omega
    · exact Group.exists_turn o limit hr
  · intro ts g failed h hr
    have hsound : Group.Sound o ps g :=
      Group.run_preserves (fun hg ht => hg.turn ht) (Group.Sound.ofPrograms o ps) h
    obtain ⟨hfailed, hresults⟩ := hsound.results hr
    have hcanceled : g.canceled = decide (Turn.cancel ∈ ts) := by
      rw [Group.canceled_run h]
      exact Bool.false_or _
    refine ⟨fun hnot => ?_, fun hmem => ?_, fun rest hts => ?_⟩
    · have hc : g.canceled = false := by rw [hcanceled, decide_eq_false hnot]
      have heq : g.results = ps.map fun p => (p.run o none).1 :=
        (forall₂_eq_map_iff _ _ _).1 (hresults.imp fun _ _ h => h.1 hc)
      refine ⟨hfailed.trans hc, heq, ?_⟩
      rw [heq, ← results_runEach]
      rfl
    · have hc : g.canceled = true := by rw [hcanceled, decide_eq_true hmem]
      exact ⟨hfailed.trans hc, hresults.imp fun _ _ h => h.2⟩
    · subst hts
      exact Group.results_of_stopped h

/-- A program that prints and asks once, and one that fails, in a schedule where they take turns;
and in another one, where the context is done when the first program asks and before the second
one. -/
theorem schedule_results_pair :
    let o := Options.limited {} 9
    let ps : List Program :=
      [⟨utf8 "a", [some (.print (.literal 7)), some (.loop (.literal 0) .none)], false⟩,
        ⟨utf8 "b", [some (.var (utf8 "x"))], true⟩]
    let ts : List Turn := [.start 1, .start 0, .work 0, .work 1, .work 0, .work 1, .work 0, .wait,
      .leave]
    let us : List Turn := [.start 0, .start 1, .work 0, .cancel, .stop, .work 0, .work 1, .wait,
      .leave]
    (∃ g, (Group.ofPrograms ps).run o 0 ts = some g ∧ g.returned = some false ∧
      g.results = ps.map fun p => (p.run o none).1) ∧
    ∃ g, (Group.ofPrograms ps).run o 2 us = some g ∧ g.returned = some true ∧
      g.results = [⟨utf8 "a", 0, utf8 "7\n", some (.error .canceled)⟩, {}] ∧
      List.Forall₂ (fun p r => r = {} ∨ ∃ k, r = (p.run o (some k)).1) ps g.results := by
  intro o ps ts us
  have hts : ((Group.ofPrograms ps).run o 0 ts).map (·.returned) = some (some false) := by
    decide +kernel
  have hus : ((Group.ofPrograms ps).run o 2 us).map (fun g => (g.returned, g.results)) =
      some (some true, [⟨utf8 "a", 0, utf8 "7\n", some (.error .canceled)⟩, {}]) := by
    decide +kernel
  obtain ⟨g, hg, hr⟩ := Option.map_eq_some_iff.1 hts
  obtain ⟨g', hg', hr'⟩ := Option.map_eq_some_iff.1 hus
  obtain ⟨hr', hresults⟩ := Prod.mk.inj hr'
  refine ⟨⟨g, hg, hr, ?_⟩, g', hg', hr', hresults, ?_⟩
  · exact (((schedule_results o ps 0).2 ts g false hg hr).1 (by decide)).2.1
  · exact (((schedule_results o ps 2).2 us g' true hg' hr').2.1 (by decide)).2

end Batch

end TreeLang
