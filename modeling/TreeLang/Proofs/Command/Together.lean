import TreeLang.Command.Basic
import TreeLang.Proofs.Batch.Requests
import TreeLang.Proofs.Batch.Schedule

/-!
# Files that are run together

One file is run for itself, and several files are run as a batch. The two ways agree: what a batch
writes to the output is what its files write alone, one after the other, each under a heading, and
it fails if one of them does (`Command.run_files_together`). That does not depend on how many
programs run at once, since the workers of the batch store the same results in every schedule. If a
file cannot be read, none is run.
-/

set_option autoImplicit false

namespace TreeLang.Command

/-! ## Arguments -/

/-- An argument that does not start with a dash is no flag. -/
theorem argument_of_head {t : Text} (h : t.head? ≠ some 45) : argument t = .other := by
  cases t with
  | nil => rfl
  | cons b r =>
    have hb : b ≠ 45 := fun hb => h (congrArg some hb)
    unfold argument
    split <;> simp_all

theorem exists_of_bind_eq_ok {ε α β : Type} {x : Except ε α} {f : α → Except ε β} {b : β}
    (h : x >>= f = .ok b) : ∃ a, x = .ok a ∧ f a = .ok b := by
  cases x with
  | error e => cases h
  | ok a => exact ⟨a, rfl, h⟩

/-- Arguments that are not flags are left by the flags before them. -/
theorem readFlags_append {known : List Flag} {s s' : Settings} {flags paths : List Text}
    (h : readFlags known s flags = .ok (s', [])) (hpaths : ∀ p ∈ paths.head?, argument p = .other) :
    readFlags known s (flags ++ paths) = .ok (s', paths) := by
  fun_induction readFlags known s flags with
  | case1 s =>
    cases h
    cases paths with
    | nil => rfl
    | cons p paths => rw [List.nil_append, readFlags, hpaths p rfl]
  | case2 => cases h
  | case3 s arg rest harg =>
    cases h
    rw [List.cons_append, readFlags, harg]
    rfl
  | case4 => cases h
  | case5 => cases h
  | case6 => cases h
  | case7 s arg rest name value harg f hfind hswitch ih =>
    obtain ⟨s₁, hset, h⟩ := exists_of_bind_eq_ok h
    rw [List.cons_append, readFlags, harg]
    simp only [hfind, if_pos hswitch, hset]
    exact ih s₁ h
  | case8 s arg name f hfind hswitch v rest harg ih =>
    obtain ⟨s₁, hset, h⟩ := exists_of_bind_eq_ok h
    rw [List.cons_append, readFlags, harg]
    simp only [hfind, if_neg hswitch, hset]
    exact ih s₁ h
  | case9 s arg name f hfind hswitch v rest harg ih =>
    obtain ⟨s₁, hset, h⟩ := exists_of_bind_eq_ok h
    rw [List.cons_append, List.cons_append, readFlags, harg]
    simp only [hfind, if_neg hswitch, hset]
    exact ih s₁ h
  | case10 => cases h

/-! ## Files -/

/-- The program of a file, which has no trees if the file cannot be read. -/
def fileProgram (w : World) (library : Bool) (path : Text) : Program :=
  ⟨path, (((w.find path).trees path).toOption.getD []).map some, library⟩

variable {w : World} (library : Bool)

/-- If all files can be read, there is one program for each of them, in the order of the paths. -/
theorem programs_eq_ok {paths : List Text} (h : ∀ p ∈ paths, ∃ ts, (w.find p).trees p = .ok ts) :
    programs w library paths = .ok (paths.map (fileProgram w library)) := by
  induction paths with
  | nil => rfl
  | cons p paths ih =>
    obtain ⟨ts, hts⟩ := h p List.mem_cons_self
    have hrest := ih fun q hq => h q (List.mem_cons_of_mem p hq)
    rw [programs, hts, hrest, List.map_cons, fileProgram, hts]
    rfl

/-- The first file that cannot be read is the one that is reported. -/
theorem programs_eq_error {paths : List Text}
    (h : ∃ p ∈ paths, ∃ e, (w.find p).trees p = .error e) :
    ∃ before p after e, paths = before ++ p :: after ∧
      (∀ q ∈ before, ∃ ts, (w.find q).trees q = .ok ts) ∧ (w.find p).trees p = .error e ∧
      programs w library paths = .error e := by
  induction paths with
  | nil =>
    obtain ⟨p, hp, -⟩ := h
    exact absurd hp List.not_mem_nil
  | cons q paths ih =>
    cases hq : (w.find q).trees q with
    | error e =>
      refine ⟨[], q, paths, e, rfl, fun r hr => absurd hr List.not_mem_nil, hq, ?_⟩
      rw [programs, hq]
      rfl
    | ok ts =>
      -- the first file can be read, so it is another one that cannot
      have hrest : ∃ p ∈ paths, ∃ e, (w.find p).trees p = .error e := by
        obtain ⟨p, hp, e, he⟩ := h
        rcases List.mem_cons.1 hp with rfl | hp
        · rw [hq] at he
          cases he
        · exact ⟨p, hp, e, he⟩
      obtain ⟨before, p, after, e, rfl, hbefore, he, hprograms⟩ := ih hrest
      refine ⟨q :: before, p, after, e, rfl, ?_, he, ?_⟩
      · exact List.forall_mem_cons.2 ⟨⟨ts, hq⟩, hbefore⟩
      · rw [programs, hq, hprograms]
        rfl

/-! ## Programs -/

/-- What a batch reports of results. -/
structure Report.Tells (r : Report) (results : List Result) : Prop where
  output : r.output = results.flatMap resultOutput
  code : r.code = if results.any fun r => r.halt.isSome then 1 else 0

/-- What files that are run together come to, by what each of them comes to alone. -/
structure Report.Joins (r : Report) (paths : List Text) (alone : Text → Report) : Prop where
  output : r.output = paths.flatMap fun p => heading p ++ (alone p).output
  code : r.code = if ∃ p ∈ paths, (alone p).code = 1 then 1 else 0

section Programs

variable (s : EvalSettings) (p : Program)

/-- What running a program alone comes to, by its result. -/
theorem runProgram_eq :
    heading p.name ++ (runProgram s false p).output = resultOutput (p.run s.options none).1 ∧
      (runProgram s false p).code = if (p.run s.options none).1.halt.isSome then 1 else 0 := by
  rw [resultOutput, p.name_run, List.append_assoc, List.append_cancel_left_eq, runProgram,
    Program.runWith_requests, show checksWhen false = none from rfl]
  obtain ⟨r, m⟩ := p.run s.options none
  dsimp only
  cases r.halt with
  | none => exact ⟨rfl, rfl⟩
  | some h => exact ⟨(List.append_nil _).symm, rfl⟩

/-- A batch reports the results that its programs have alone. -/
theorem runPrograms_tells (ps : List Program) :
    (runPrograms s false ps).Tells (ps.map fun p => (p.run s.options none).1) := by
  rw [runPrograms, Batch.runWith_requests, Batch.run, if_neg Bool.false_ne_true, Batch.canceled_runEach,
    ← Batch.results_runEach]
  exact ⟨rfl, rfl⟩

/-- A file alone is run as its program, and files together are a batch of theirs. -/
theorem joins_of_tells {r : Report} {paths : List Text} {alone : Text → Report}
    (program : Text → Program) (hname : ∀ path ∈ paths, (program path).name = path)
    (halone : ∀ path ∈ paths, alone path = runProgram s false (program path))
    (h : r.Tells ((paths.map program).map fun p => (p.run s.options none).1)) :
    r.Joins paths alone := by
  constructor
  · rw [h.output, List.map_map, List.flatMap_map]
    apply List.flatMap_congr
    intro path hpath
    have heq := (runProgram_eq s (program path)).1
    rw [hname path hpath, ← halone path hpath] at heq
    exact heq.symm
  · rw [h.code, List.map_map, List.any_map]
    apply if_congr _ rfl rfl
    rw [List.any_eq_true]
    apply exists_congr
    intro path
    apply and_congr_right
    intro hpath
    rw [halone path hpath, (runProgram_eq s (program path)).2]
    show (((program path).run s.options none).1.halt.isSome = true) ↔ _
    split <;> simp_all

end Programs

/-! ## The command -/

/-- Run files with flags, which come before them. -/
def runWith (w : World) (flags paths : List Text) : Report := run w (utf8 "run" :: (flags ++ paths))

/-- Flags are read for files that come after them. -/
theorem run_files {w : World} {flags paths : List Text} {s : Settings}
    (hflags : readFlags runFlags {} flags = .ok (s, [])) (hne : paths ≠ [])
    (hnames : ∀ p ∈ paths, p.head? ≠ some 45) :
    runWith w flags paths =
      match programs w s.eval.library paths with
      | .error e => ⟨1, [], parseFailed e.message⟩
      | .ok [p] => runProgram s.eval w.canceled p
      | .ok ps => runPrograms s.eval w.canceled ps := by
  have hread : readFlags runFlags {} (flags ++ paths) = .ok (s, paths) := by
    apply readFlags_append hflags
    intro p hp
    exact argument_of_head (hnames p (List.mem_of_mem_head? hp))
  rw [runWith, run, if_pos rfl, runFiles, hread]
  cases paths with
  | nil => exact absurd rfl hne
  | cons p paths => rfl

/-- A file that can be read is run alone as its program. -/
theorem run_one_file {w : World} {flags : List Text} {s : Settings} {path : Text}
    (hw : w.canceled = false) (hflags : readFlags runFlags {} flags = .ok (s, []))
    (hname : path.head? ≠ some 45) (hok : ∃ ts, (w.find path).trees path = .ok ts) :
    runWith w flags [path] = runProgram s.eval false (fileProgram w s.eval.library path) := by
  have hne : [path] ≠ [] := List.cons_ne_nil path []
  rw [run_files hflags hne (List.forall_mem_singleton.2 hname),
    programs_eq_ok _ (List.forall_mem_singleton.2 hok), hw]
  rfl

/-- Several files that can be read are run as a batch. -/
theorem run_several_files {w : World} {flags paths : List Text} {s : Settings}
    (hw : w.canceled = false) (hflags : readFlags runFlags {} flags = .ok (s, []))
    (hpaths : 2 ≤ paths.length) (hnames : ∀ p ∈ paths, p.head? ≠ some 45)
    (hok : ∀ p ∈ paths, ∃ ts, (w.find p).trees p = .ok ts) :
    runWith w flags paths =
      runPrograms s.eval false (paths.map (fileProgram w s.eval.library)) := by
  cases paths with
  | nil => cases hpaths
  | cons p rest =>
    rw [run_files hflags (List.cons_ne_nil p rest) hnames, programs_eq_ok _ hok, hw]
    cases rest with
    | nil => exact absurd hpaths (Nat.not_succ_le_self 1)
    | cons q rest => rfl

/-- Files that are run together come to what they come to alone, one after the other, in every
schedule in which the workers of the batch take their turns. If a file cannot be read, none is run.
And it does not matter how many programs may run at once. -/
theorem run_files_together (w : World) (flags : List Text) (s : Settings) (paths : List Text)
    (hw : w.canceled = false) (hflags : readFlags runFlags {} flags = .ok (s, []))
    (hpaths : 2 ≤ paths.length) (hnames : ∀ p ∈ paths, p.head? ≠ some 45) :
    ((∀ p ∈ paths, ∃ ts, (w.find p).trees p = .ok ts) →
      (runWith w flags paths).Joins paths (fun p => runWith w flags [p]) ∧
      ∃ ps, programs w s.eval.library paths = .ok ps ∧
        (∃ ts g, .cancel ∉ ts ∧ (Batch.Group.ofPrograms ps).run s.eval.options s.jobs ts = some g ∧
          g.returned = some false) ∧
        ∀ ts g failed, .cancel ∉ ts →
          (Batch.Group.ofPrograms ps).run s.eval.options s.jobs ts = some g →
          g.returned = some failed → failed = false ∧ (runWith w flags paths).Tells g.results) ∧
    ((∃ p ∈ paths, ∃ e, (w.find p).trees p = .error e) →
      ∃ before p after e, paths = before ++ p :: after ∧
        (∀ q ∈ before, ∃ ts, (w.find q).trees q = .ok ts) ∧ (w.find p).trees p = .error e ∧
        runWith w flags paths = ⟨1, [], parseFailed e.message⟩) ∧
    ∀ others jobs, readFlags runFlags {} others = .ok ({ s with jobs := jobs }, []) →
      runWith w others paths = runWith w flags paths := by
  have hne : paths ≠ [] := by
    rintro rfl
    cases hpaths
  refine ⟨fun hok => ?_, fun herror => ?_, fun others jobs hothers => ?_⟩
  · have htells : (runWith w flags paths).Tells _ :=
      run_several_files hw hflags hpaths hnames hok ▸ runPrograms_tells s.eval _
    refine ⟨?_, _, programs_eq_ok _ hok, ?_, ?_⟩
    · apply joins_of_tells s.eval _ _ _ htells
      · exact fun _ _ => rfl
      · exact fun p hp => run_one_file hw hflags (hnames p hp) (hok p hp)
    · -- the batch comes to its end, and without an error
      obtain ⟨ts, g, failed, hcancel, hrun, hreturned⟩ :=
        Batch.Group.exists_schedule s.eval.options s.jobs
          (.ofPrograms (paths.map (fileProgram w s.eval.library)))
      obtain ⟨rfl, -⟩ := Batch.Group.results_eq_alone hcancel hrun hreturned
      exact ⟨ts, g, hcancel, hrun, hreturned⟩
    · intro ts g failed hcancel hrun hreturned
      obtain ⟨hfailed, hresults⟩ := Batch.Group.results_eq_alone hcancel hrun hreturned
      exact ⟨hfailed, hresults ▸ htells⟩
  · obtain ⟨before, p, after, e, hsplit, hbefore, he, hprograms⟩ :=
      programs_eq_error s.eval.library herror
    refine ⟨before, p, after, e, hsplit, hbefore, he, ?_⟩
    rw [run_files hflags hne hnames, hprograms]
  · exact (run_files hothers hne hnames).trans (run_files hflags hne hnames).symm

/-- A directory with a program that has a value, and one that has none. -/
def sampleFiles : Files := [(utf8 "a", utf8 "3"), (utf8 "b", utf8 "{var: x}")]

/-- Two files are run together as they are run alone, whatever the flags for them; with a file that
is missing, nothing is run. -/
theorem run_files_together_sample :
    let w : World := { find := sampleFiles.find }
    let flags := [utf8 "-lib", utf8 "-max-steps=1", utf8 "-j", utf8 "2"]
    (runWith w flags [utf8 "a", utf8 "b"]).Joins [utf8 "a", utf8 "b"] (fun p => runWith w flags [p]) ∧
      runWith w [utf8 "-lib", utf8 "-max-steps", utf8 "1"] [utf8 "a", utf8 "b"] =
        runWith w flags [utf8 "a", utf8 "b"] ∧
      (runWith w flags [utf8 "b", utf8 "c"]).code = 1 ∧
      (runWith w flags [utf8 "b", utf8 "c"]).output = [] := by
  intro w flags
  let s : Settings := { eval := { library := true, maxSteps := 1 }, jobs := 2 }
  have hflags : readFlags runFlags {} flags = .ok (s, []) := by decide +kernel
  have hok : ∀ p ∈ [utf8 "a", utf8 "b"], ∃ ts, (w.find p).trees p = .ok ts := by
    intro p hp
    rcases List.mem_cons.1 hp with rfl | hp
    · exact ⟨[.literal 3], by cbv⟩
    · rcases List.mem_singleton.1 hp with rfl
      exact ⟨[.var (utf8 "x")], by cbv⟩
  have hmissing : (w.find (utf8 "c")).trees (utf8 "c") =
      .error (.unopened (utf8 "c") (utf8 "no such file or directory")) := by
    rw [show w.find (utf8 "c") = .missing by decide +kernel]
    rfl
  obtain ⟨hjoins, -, hjobs⟩ := run_files_together w flags s [utf8 "a", utf8 "b"] rfl hflags
    (Nat.le_refl 2) (by decide +kernel)
  obtain ⟨-, hfails, -⟩ := run_files_together w flags s [utf8 "b", utf8 "c"] rfl hflags
    (Nat.le_refl 2) (by decide +kernel)
  obtain ⟨before, p, after, e, -, -, -, hreport⟩ := hfails ⟨utf8 "c", by simp, _, hmissing⟩
  refine ⟨(hjoins hok).1, hjobs _ 4 (by decide +kernel), ?_, ?_⟩
  · rw [hreport]
  · rw [hreport]

end TreeLang.Command
