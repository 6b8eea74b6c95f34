import TreeLang.Proofs.Session.Entries
import TreeLang.Proofs.Tree.Stream

/-!
# The account of a session

Every event that a session reads is in one entry, among the lines that wait in the end, or the one
that ends the session, and the session does what the entries say (`exists_account`,
`Session.resume_eq_carryOut`). A source in which some document cannot be read changes nothing but
the diagnostics (`Session.submit_faulty`).
-/

set_option autoImplicit false

namespace TreeLang

/-! ## Whole sessions -/

namespace Intake

/-- The events that are read until one ends the session, each with what is done after it. -/
def trace : Intake → List InputEvent → List (InputEvent × Action)
  | _, [] => []
  | s, e :: es =>
    (e, (s.take e).2) :: if Session.isLast (s.take e).2 then [] else trace (s.take e).1 es

/-- The intake after the events that are read. -/
def after : Intake → List InputEvent → Intake
  | s, [] => s
  | s, e :: es => if Session.isLast (s.take e).2 then (s.take e).1 else after (s.take e).1 es

/-- An event that does not end the session. -/
theorem trace_cons {s r : Intake} {e : InputEvent} {a : Action} (h : s.take e = (r, a))
    (ha : Session.isLast a = false) (es : List InputEvent) :
    trace s (e :: es) = (e, a) :: trace r es ∧ after s (e :: es) = after r es := by
  rw [trace, after, h, ha]
  exact ⟨rfl, rfl⟩

/-- An event that ends it. -/
theorem trace_cons_last {s r : Intake} {e : InputEvent} {a : Action} (h : s.take e = (r, a))
    (ha : Session.isLast a = true) (es : List InputEvent) :
    trace s (e :: es) = [(e, a)] ∧ after s (e :: es) = r := by
  rw [trace, after, h, ha]
  exact ⟨rfl, rfl⟩

/-- The events that are read are the first ones. -/
theorem trace_events_prefix (s : Intake) (es : List InputEvent) :
    (trace s es).map Prod.fst <+: es := by
  induction es generalizing s with
  | nil => exact List.prefix_refl []
  | cons e es ih =>
    rw [trace, List.map_cons, List.prefix_cons_inj]
    split
    · exact List.nil_prefix
    · exact ih _

end Intake

open Intake (holding trace after)

/-- An account of events that come to lines that wait. -/
structure Account.Covers (a : Account) (ls : List Text) (es : List InputEvent) : Prop where
  proper : a.Proper
  steps : waits ls ++ trace (holding ls) es = a.steps
  pending : after (holding ls) es = holding a.pending
  all : a.ending = .none → (trace (holding ls) es).map Prod.fst = es

namespace Account.Covers

/-- Nothing is read. -/
theorem nil {ls : List Text} (h : Waiting ls) : Account.Covers { pending := ls } ls [] where
  proper := ⟨fun e he => absurd he List.not_mem_nil, h, fun l hl => by cases hl⟩
  steps := by simp [Account.steps, trace, Ending.steps]
  pending := rfl
  all _ := rfl

/-- A line that waits with the others. -/
theorem more {a : Account} {ls : List Text} {l : Text} {es : List InputEvent}
    (htake : (holding ls).take (.line l) = (holding (ls ++ [l]), .wait))
    (h : a.Covers (ls ++ [l]) es) : a.Covers ls (.line l :: es) := by
  obtain ⟨htrace, hafter⟩ := Intake.trace_cons htake rfl es
  constructor
  · exact h.proper
  · rw [htrace, ← h.steps]
    simp [waits]
  · rw [hafter, h.pending]
  · intro hend
    rw [htrace, List.map_cons, h.all hend]

/-- An event that completes an entry: nothing waits after it. -/
theorem cons {a : Account} {ls : List Text} {e : InputEvent} {act : Action}
    {es : List InputEvent} (entry : Entry) (htake : (holding ls).take e = (holding [], act))
    (hact : Session.isLast act = false) (hentry : entry.Proper)
    (hsteps : waits ls ++ [(e, act)] = entry.steps) (h : a.Covers [] es) :
    (a.cons entry).Covers ls (e :: es) := by
  obtain ⟨htrace, hafter⟩ := Intake.trace_cons htake hact es
  constructor
  · exact h.proper.cons hentry
  · rw [htrace, Account.steps_cons, ← h.steps, List.append_cons, hsteps, Entry.steps]
    simp [waits]
  · rw [hafter, h.pending]
    rfl
  · intro hend
    rw [htrace, List.map_cons, h.all hend]

/-- An event that ends the session. -/
theorem last {ls : List Text} {e : InputEvent} {act : Action} (ending : Ending)
    (htake : (holding ls).take e = (holding ls, act)) (hact : Session.isLast act = true)
    (hls : Waiting ls) (hsteps : ending.steps = [(e, act)])
    (hexit : ∀ l, ending = .exit l → ls = [] ∧ Intake.command? l = some .leave)
    (es : List InputEvent) :
    Account.Covers { pending := ls, ending := ending } ls (e :: es) := by
  obtain ⟨htrace, hafter⟩ := Intake.trace_cons_last htake hact es
  constructor
  · exact ⟨fun e he => absurd he List.not_mem_nil, hls, hexit⟩
  · rw [htrace, Account.steps, hsteps]
    rfl
  · exact hafter
  · rintro rfl
    cases hsteps

end Account.Covers

/-- All events have an account, whatever waits before them. -/
theorem exists_account {ls : List Text} (h : Waiting ls) (es : List InputEvent) :
    ∃ a : Account, a.Covers ls es := by
  -- along the events: each one completes an entry, adds to the lines that wait, or ends the session
  induction es generalizing ls with
  | nil => exact ⟨_, .nil h⟩
  | cons e es ih =>
    obtain ⟨rest, hrest, htakes, hafter⟩ := Intake.take_holding h e
    obtain ⟨a, ha⟩ := ih hrest
    have htake : (holding ls).take e = (holding rest, ((holding ls).take e).2) :=
      Prod.ext hafter rfl
    generalize ((holding ls).take e).2 = act at htakes htake
    cases htakes with
    | @command l _ hls hl =>
      subst hls
      rcases Intake.command?_eq_some hl with rfl | hact
      · refine ⟨_, .last (.exit l) htake rfl .nil rfl ?_ es⟩
        rintro _ ⟨⟩
        exact ⟨rfl, hl⟩
      · refine ⟨_, ha.cons (.command l act) htake ?_ ⟨hl, hact⟩ rfl⟩
        rcases hact with rfl | rfl <;> rfl
    | more hl hdepth => exact ⟨a, ha.more htake⟩
    | @closed l hl hdepth =>
      refine ⟨_, ha.cons (.source ls l) htake ?_ ⟨h, hl, hdepth⟩ rfl⟩
      rw [Intake.sourceAction]
      split <;> rfl
    | discard hls => exact ⟨_, ha.cons (.dropped ls) htake rfl ⟨h, hls⟩ rfl⟩
    | hint hls =>
      subst hls
      exact ⟨_, ha.cons .idle htake rfl trivial rfl⟩
    | finish =>
      refine ⟨_, .last .endOfInput htake rfl h rfl ?_ es⟩
      rintro _ ⟨⟩

/-! ## What a session does -/

namespace Session

variable (set : EvalSettings) (canceled : Bool)

/-- Carrying out an action neither asks what waits nor changes it. -/
theorem act_intake (s : Session) (i : Intake) (a : Action) :
    act set canceled { s with intake := i } a = { act set canceled s a with intake := i } := by
  cases a with
  | submit source =>
    unfold act submit
    dsimp only
    cases evalText _ source _ <;> rfl
  | _ => rfl

/-- Carry out actions one after the other. -/
def carryOut (s : Session) (as : List Action) : Session := as.foldl (act set canceled) s

/-- What is carried out does not depend on the lines that wait. -/
theorem carryOut_intake (s : Session) (i : Intake) (as : List Action) :
    carryOut set canceled { s with intake := i } as =
      { carryOut set canceled s as with intake := i } := by
  induction as generalizing s with
  | nil => rfl
  | cons a as ih =>
    show carryOut set canceled (act set canceled { s with intake := i } a) as = _
    rw [act_intake, ih]
    rfl

/-- A session carries out what its trace says. -/
theorem resume_eq_carryOut (s : Session) (es : List InputEvent) :
    resume set canceled s es =
      { carryOut set canceled s ((trace s.intake es).map Prod.snd) with
        intake := after s.intake es } := by
  induction es generalizing s with
  | nil => rfl
  | cons e es ih =>
    have hadvance : s.advance set canceled e =
        ({ act set canceled s (s.intake.take e).2 with intake := (s.intake.take e).1 },
          isLast (s.intake.take e).2) := by
      rw [← act_intake]
      rfl
    rw [resume, hadvance, trace, after]
    by_cases hlast : isLast (s.intake.take e).2 = true
    · simp only [if_pos hlast]
      rfl
    · simp only [if_neg hlast]
      rw [ih, carryOut_intake]
      rfl

end Session

/-! ## Sources with a fault -/

/-- Some document of a text is no tree, or what should be a document is none: a call on the stream
of the text fails before one comes to the end. -/
def Faulty (t : Text) : Prop :=
  ∃ n before e, (TreeStream.calls n (.ofSource (.ofBytes t))).1 = before ++ [.error e] ∧
    .ok none ∉ before

namespace TreeStream

/-- A call that fails keeps all trees from being read, however many documents may be read. -/
theorem readAll_of_calls {n : Nat} {s : TreeStream} {before : List Answer} {e : ReadError}
    (hcalls : (calls n s).1 = before ++ [.error e]) (hbefore : .ok none ∉ before) (fuel : Nat) :
    ∃ e, readAll fuel s = .error e := by
  induction fuel generalizing n s before with
  | zero => exact ⟨_, rfl⟩
  | succ fuel ih =>
    cases n with
    | zero => cases before <;> cases hcalls
    | succ n =>
      rw [calls] at hcalls
      rw [readAll]
      cases hnext : next? s with
      | error e' rest => exact ⟨e', rfl⟩
      | ok t rest =>
        rw [hnext] at hcalls
        cases before with
        | nil => cases hcalls
        | cons b before =>
          obtain ⟨rfl, hrest⟩ := List.cons.inj hcalls
          rw [List.mem_cons, not_or] at hbefore
          cases t with
          | none => exact absurd rfl hbefore.1
          | some t =>
            obtain ⟨e', he'⟩ := ih hrest hbefore.2
            refine ⟨e', ?_⟩
            dsimp only
            rw [he']
            rfl

end TreeStream

/-- A faulty text is not parsed. -/
theorem Faulty.parse {t : Text} (h : Faulty t) : ∃ e, Tree.parse t = .error e := by
  obtain ⟨n, before, e, hcalls, hbefore⟩ := h
  exact TreeStream.readAll_of_calls hcalls hbefore _

/-- A source with a fault only gives an error. -/
theorem Session.submit_faulty (set : EvalSettings) (canceled : Bool) (s : Session) {source : Text}
    (h : Faulty source) :
    ∃ e : ReadError, s.submit set canceled source =
      { s with transcript := s.transcript.warn (red (utf8 "error: " ++ e.message) ++ Text.newline) } := by
  obtain ⟨e, he⟩ := h.parse
  refine ⟨e, ?_⟩
  have hwrite : s.transcript.write [] = s.transcript := by
    rw [Transcript.write, List.append_nil]
  unfold submit evalText
  rw [he]
  show ({ s with transcript := (s.transcript.write []).warn _ } : Session) = _
  rw [hwrite]
  rfl

/-! ## Nothing is lost and nothing is read twice -/

namespace Session

/-- Whenever a session awaits an event, the depth is the number of brackets open in what waits, and
zero only if nothing waits. The events have one account, and the session does what the account says.
And a source with a fault changes neither the scope nor the output. -/
theorem resume_accounts (set : EvalSettings) (canceled : Bool) (es : List InputEvent) :
    (∀ k, let s := (resume set canceled (start set) (es.take k)).intake
        s.InStep ∧ ∀ e, ((s.take e).2 ∈ [Action.leave, .showVars, .showFuncs] → s.depth = 0) ∧
          ((s.take e).2 = .discard → 0 < s.depth)) ∧
      (∃ a : Account,
        (∀ b : Account, b.Proper ∧ b.steps = trace {} es ↔ b = a) ∧
        (a.steps.map Prod.fst <+: es ∧ (a.ending = .none → a.steps.map Prod.fst = es)) ∧
        resume set canceled (start set) es =
          { carryOut set canceled (start set) (a.steps.map Prod.snd) with
            intake := holding a.pending }) ∧
      ∀ (s : Session) (source : Text), Faulty source →
        ∃ e : ReadError, s.act set canceled (.submit source) =
          { s with
            transcript := s.transcript.warn (red (utf8 "error: " ++ e.message) ++ Text.newline) } := by
  refine ⟨fun k => ?_, ?_, fun s source h => s.submit_faulty set canceled h⟩
  · obtain ⟨a, ha⟩ := exists_account .nil (es.take k)
    have hintake : (resume set canceled (start set) (es.take k)).intake = holding a.pending := by
      rw [resume_eq_carryOut]
      exact ha.pending
    rw [hintake]
    exact ⟨Intake.inStep_holding ha.proper.pending, Intake.depth_of_take ha.proper.pending⟩
  · obtain ⟨a, ha⟩ := exists_account .nil es
    have hsteps : a.steps = trace {} es := ha.steps.symm
    refine ⟨a, fun b => ⟨fun hb => ?_, fun hb => hb ▸ ⟨ha.proper, hsteps⟩⟩, ?_, ?_⟩
    · exact hb.1.eq_of_steps ha.proper (hb.2.trans hsteps.symm)
    · rw [hsteps]
      exact ⟨Intake.trace_events_prefix {} es, ha.all⟩
    · rw [hsteps, resume_eq_carryOut, ← ha.pending]
      rfl

/-- A source, a list of the variables, lines that are dropped, and a line that is not read. -/
def sampleEvents : List InputEvent :=
  [.line (utf8 "[[1,"), .line (utf8 "exit]]"), .line (utf8 " :vars"), .line (utf8 "["), .interrupt,
    .line (utf8 "exit"), .line (utf8 "7")]

def sampleAccount : Account where
  entries := [.source [utf8 "[[1,"] (utf8 "exit]]"), .command (utf8 " :vars") .showVars,
    .dropped [utf8 "["]]
  ending := .exit (utf8 "exit")

/-- The second document is a list, which is no tree. -/
def faultySource : Text := utf8 "7\n--- [7]\n"

/-- A session of a sample is accounted for by its entries. -/
theorem resume_accounts_sample :
    (sampleAccount.Proper ∧ sampleAccount.steps = trace {} sampleEvents) ∧
      resume {} false (start {}) sampleEvents =
        { carryOut {} false (start {}) (sampleAccount.steps.map Prod.snd) with intake := {} } ∧
      Faulty faultySource ∧
      ∃ e : ReadError, (start {}).act {} false (.submit faultySource) =
        { start {} with
          transcript := (start {}).transcript.warn
            (red (utf8 "error: " ++ e.message) ++ Text.newline) } := by
  have hfaulty : Faulty faultySource := by
    refine ⟨2, [.ok (some (.literal 7))], .tree ⟨⟨2, 5⟩, .notTree (utf8 "!!seq")⟩, by cbv, by simp⟩
  have hproper : sampleAccount.Proper := by
    refine ⟨?_, .nil, ?_⟩
    · intro e he
      simp only [sampleAccount, List.mem_cons, List.not_mem_nil, or_false] at he
      rcases he with rfl | rfl | rfl
      · exact ⟨Waiting.nil.concat (fun _ => by decide +kernel) (by decide +kernel),
          fun h => absurd h (List.cons_ne_nil _ _), by decide +kernel⟩
      · exact ⟨by decide +kernel, .inl rfl⟩
      · exact ⟨Waiting.nil.concat (fun _ => by decide +kernel) (by decide +kernel), by simp⟩
    · rintro _ ⟨⟩
      exact ⟨rfl, by decide +kernel⟩
  have hsteps : sampleAccount.steps = trace {} sampleEvents := by decide +kernel
  obtain ⟨-, ⟨a, hiff, -, hresume⟩, hsubmit⟩ := resume_accounts {} false sampleEvents
  cases (hiff sampleAccount).1 ⟨hproper, hsteps⟩
  exact ⟨⟨hproper, hsteps⟩, hresume, hfaulty, hsubmit (start {}) faultySource hfaulty⟩

end Session

end TreeLang
