import Mathlib
import TreeLang.Session.Basic

/-!
# The entries of a session

What a session reads falls into entries, one after the other: a command, lines that are submitted or
skipped together as one source, lines that an interrupt drops, and an interrupt with nothing to
drop. At the end there may be lines that still wait for others.

The lines that wait are what ties the text and the depth of the intake together: the text is that of
the lines, the depth is the number of brackets open in it, and since more brackets are open than
closed after each of the lines, the depth is zero only if there are none (`Intake.take_holding`).
Events that are divided into entries are divided in one way only (`Account.Proper.eq_of_steps`).
-/

set_option autoImplicit false

namespace TreeLang

/-! ## Brackets -/

/-- The depths of texts one after the other add up. -/
theorem bracketDepth_append (a b : Text) : bracketDepth (a ++ b) = bracketDepth a + bracketDepth b := by
  simp only [bracketDepth, List.count_append]
  omega

/-- Lines one after the other, each with a line feed at its end. -/
def joined (ls : List Text) : Text := ls.flatMap fun l => l ++ Text.newline

/-- One more line comes after the others, with its break. -/
theorem joined_concat (ls : List Text) (l : Text) :
    joined (ls ++ [l]) = joined ls ++ l ++ Text.newline := by
  simp [joined, List.append_assoc]

/-- A line feed neither opens nor closes a bracket. -/
theorem bracketDepth_joined_concat (ls : List Text) (l : Text) :
    bracketDepth (joined (ls ++ [l])) = bracketDepth (joined ls) + bracketDepth l := by
  have hnewline : bracketDepth Text.newline = 0 := by decide
  rw [joined_concat, bracketDepth_append, bracketDepth_append, hnewline]
  omega

theorem joined_eq_nil_iff (ls : List Text) : joined ls = [] ↔ ls = [] := by
  cases ls with
  | nil => simp [joined]
  | cons l ls => simp [joined, Text.newline]

/-! ## Lines that wait -/

/-- Lines that wait for others: the first one is not a command, and after each of them more brackets
were opened than closed. -/
structure Waiting (ls : List Text) : Prop where
  first : ∀ l ∈ ls.head?, Intake.command? l = none
  deep : ∀ p, p <+: ls → p ≠ [] → 0 < bracketDepth (joined p)

namespace Waiting

theorem nil : Waiting [] := by
  refine ⟨by simp, fun p hp hne => absurd (List.prefix_nil.1 hp) hne⟩

/-- A line more, if no line waits and it is no command, or others wait. -/
theorem concat {ls : List Text} (h : Waiting ls) {l : Text}
    (hl : ls = [] → Intake.command? l = none) (hdepth : 0 < bracketDepth (joined (ls ++ [l]))) :
    Waiting (ls ++ [l]) := by
  constructor
  · cases ls with
    | nil => simpa using hl rfl
    | cons k ks => simpa using h.first
  · intro p hp hne
    rcases List.prefix_concat_iff.1 hp with rfl | hp
    · exact hdepth
    · exact h.deep p hp hne

theorem depth_pos {ls : List Text} (h : Waiting ls) (hne : ls ≠ []) : 0 < bracketDepth (joined ls) :=
  h.deep ls (List.prefix_refl ls) hne

end Waiting

namespace Intake

/-- The intake with lines that wait. -/
def holding (ls : List Text) : Intake := ⟨joined ls, bracketDepth (joined ls)⟩

/-- The text and the depth of an intake are in step. -/
structure InStep (s : Intake) : Prop where
  nonneg : 0 ≤ s.depth
  depth_eq : s.depth = bracketDepth s.waiting
  empty : s.depth = 0 ↔ s.waiting = []

/-- Lines that wait leave a bracket open, unless there are none. -/
theorem holding_depth_eq_zero_iff {ls : List Text} (h : Waiting ls) :
    (holding ls).depth = 0 ↔ ls = [] := by
  constructor
  · intro hz
    by_contra hne
    have hpos := h.depth_pos hne
    exact absurd hz (ne_of_gt hpos)
  · rintro rfl
    rfl

/-- An intake that holds waiting lines is as it should be. -/
theorem inStep_holding {ls : List Text} (h : Waiting ls) : InStep (holding ls) where
  nonneg := by
    by_cases hne : ls = []
    · subst hne
      exact le_refl 0
    · exact le_of_lt (h.depth_pos hne)
  depth_eq := rfl
  empty := (holding_depth_eq_zero_iff h).trans (joined_eq_nil_iff ls).symm

/-! ## What an event does -/

/-- What is done with a source: it is skipped if it is blank. -/
def sourceAction (source : Text) : Action :=
  if (Blank.trim source).isEmpty then .skip else .submit source

/-- What an event does, by the lines that wait before it: the action, and the lines that wait after
it. -/
inductive Takes (ls : List Text) : InputEvent → Action → List Text → Prop
  | command {l : Text} {a : Action} : ls = [] → command? l = some a → Takes ls (.line l) a []
  | more {l : Text} : (ls = [] → command? l = none) → 0 < bracketDepth (joined (ls ++ [l])) →
      Takes ls (.line l) .wait (ls ++ [l])
  | closed {l : Text} : (ls = [] → command? l = none) → bracketDepth (joined (ls ++ [l])) ≤ 0 →
      Takes ls (.line l) (sourceAction (joined (ls ++ [l]))) []
  | discard : ls ≠ [] → Takes ls .interrupt .discard []
  | hint : ls = [] → Takes ls .interrupt .hint []
  | finish : Takes ls .endOfInput .finish ls

/-- A line completes the source, or waits with the others. -/
theorem addLine_holding (ls : List Text) (l : Text) :
    (holding ls).addLine l =
      if 0 < bracketDepth (joined (ls ++ [l])) then (holding (ls ++ [l]), .wait)
      else (holding [], sourceAction (joined (ls ++ [l]))) := by
  have hdepth : (holding ls).depth + bracketDepth l = bracketDepth (joined (ls ++ [l])) :=
    (bracketDepth_joined_concat ls l).symm
  have hwaiting : (holding ls).waiting ++ l ++ Text.newline = joined (ls ++ [l]) :=
    (joined_concat ls l).symm
  rw [addLine, hdepth, hwaiting, sourceAction]
  split
  · rfl
  · split <;> rfl

/-- A line is a command only if none waits, and else it is added to those that wait. -/
theorem take_line_holding {ls : List Text} (h : Waiting ls) (l : Text) :
    (∃ a, ls = [] ∧ command? l = some a ∧ (holding ls).take (.line l) = (holding [], a)) ∨
      (ls = [] → command? l = none) ∧ (holding ls).take (.line l) = (holding ls).addLine l := by
  rw [take]
  by_cases hls : ls = []
  · rw [if_pos ((holding_depth_eq_zero_iff h).2 hls)]
    subst hls
    cases hl : command? l with
    | some a => exact Or.inl ⟨a, rfl, rfl, rfl⟩
    | none => exact Or.inr ⟨fun _ => rfl, rfl⟩
  · rw [if_neg fun hz => hls ((holding_depth_eq_zero_iff h).1 hz)]
    exact Or.inr ⟨fun hnil => absurd hnil hls, rfl⟩

/-- An event comes to lines that wait, and leaves lines that wait. -/
theorem take_holding {ls : List Text} (h : Waiting ls) (e : InputEvent) :
    ∃ rest, Waiting rest ∧ Takes ls e ((holding ls).take e).2 rest ∧
      ((holding ls).take e).1 = holding rest := by
  cases e with
  | line l =>
    rcases take_line_holding h l with ⟨a, hls, hl, htake⟩ | ⟨hl, htake⟩
    · rw [htake]
      exact ⟨[], .nil, .command hls hl, rfl⟩
    · rw [htake, addLine_holding]
      by_cases hdepth : 0 < bracketDepth (joined (ls ++ [l]))
      · rw [if_pos hdepth]
        exact ⟨ls ++ [l], h.concat hl hdepth, .more hl hdepth, rfl⟩
      · rw [if_neg hdepth]
        exact ⟨[], .nil, .closed hl (not_lt.1 hdepth), rfl⟩
  | interrupt =>
    rw [take]
    by_cases hls : ls = []
    · subst hls
      exact ⟨[], .nil, .hint rfl, rfl⟩
    · rw [if_pos (show 0 < (holding ls).depth from h.depth_pos hls)]
      exact ⟨[], .nil, .discard hls, rfl⟩
  | endOfInput => exact ⟨ls, h, .finish, rfl⟩

/-- The actions that commands stand for. -/
theorem command?_eq_some {l : Text} {a : Action} (h : command? l = some a) :
    a = .leave ∨ a = .showVars ∨ a = .showFuncs := by
  simp only [command?, List.lookup] at h
  split at h
  · simp_all
  · split at h
    · simp_all
    · split at h <;> simp_all

/-- Commands are carried out only if no bracket is open, and lines are dropped only if one is. -/
theorem depth_of_take {ls : List Text} (h : Waiting ls) (e : InputEvent) :
    (((holding ls).take e).2 ∈ [Action.leave, .showVars, .showFuncs] → (holding ls).depth = 0) ∧
      (((holding ls).take e).2 = .discard → 0 < (holding ls).depth) := by
  obtain ⟨rest, -, htakes, -⟩ := take_holding h e
  generalize ((holding ls).take e).2 = act at htakes
  cases htakes with
  | command hls hl =>
    refine ⟨fun _ => (holding_depth_eq_zero_iff h).2 hls, ?_⟩
    rintro rfl
    rcases command?_eq_some hl with h | h | h <;> cases h
  | closed hl hdepth =>
    rw [sourceAction]
    split <;> simp
  | discard hls => exact ⟨by simp, fun _ => h.depth_pos hls⟩
  | _ => simp

end Intake

/-! ## Entries -/

/-- What a session reads, in pieces that are done with. -/
inductive Entry where
  /-- A command that does not end the session. -/
  | command (line : Text) (action : Action)
  /-- The lines of a source, and the last of them. -/
  | source (lines : List Text) (last : Text)
  /-- Lines that wait, and an interrupt. -/
  | dropped (lines : List Text)
  /-- An interrupt while no line waits. -/
  | idle

/-- Lines that are read and wait. -/
def waits (ls : List Text) : List (InputEvent × Action) := ls.map fun l => (.line l, .wait)

/-- The first event after which the session does something divides what it reads. -/
theorem waits_append_inj {ls ms : List Text} {r t : List (InputEvent × Action)}
    (hr : ∀ p ∈ r.head?, p.2 ≠ .wait) (ht : ∀ p ∈ t.head?, p.2 ≠ .wait)
    (h : waits ls ++ r = waits ms ++ t) : ls = ms ∧ r = t := by
  induction ls generalizing ms with
  | nil =>
    cases ms with
    | nil => exact ⟨rfl, h⟩
    | cons m ms =>
      obtain rfl : r = (.line m, .wait) :: (waits ms ++ t) := h
      exact absurd rfl (hr _ rfl)
  | cons l ls ih =>
    cases ms with
    | nil =>
      obtain rfl : (.line l, .wait) :: (waits ls ++ r) = t := h
      exact absurd rfl (ht _ rfl)
    | cons m ms =>
      obtain ⟨hl, hrest⟩ := List.cons.inj h
      obtain ⟨rfl, rfl⟩ := ih hrest
      cases hl
      exact ⟨rfl, rfl⟩

namespace Entry

/-- The lines that wait before an entry is complete. -/
def lines : Entry → List Text
  | .source ls _ | .dropped ls => ls
  | _ => []

/-- The event that completes an entry, with what the session does after it. -/
def closing : Entry → InputEvent × Action
  | .command l a => (.line l, a)
  | .source ls l => (.line l, Intake.sourceAction (joined (ls ++ [l])))
  | .dropped _ => (.interrupt, .discard)
  | .idle => (.interrupt, .hint)

/-- The events of an entry, each with what the session does after it. -/
def steps (e : Entry) : List (InputEvent × Action) := waits e.lines ++ [e.closing]

/-- The lines of an entry are what the entry takes them for. -/
def Proper : Entry → Prop
  | .command l a => Intake.command? l = some a ∧ (a = .showVars ∨ a = .showFuncs)
  | .source ls l => Waiting ls ∧ (ls = [] → Intake.command? l = none) ∧
      bracketDepth (joined (ls ++ [l])) ≤ 0
  | .dropped ls => Waiting ls ∧ ls ≠ []
  | .idle => True

/-- The event that completes an entry is one after which the session does something, and goes on. -/
theorem Proper.closing_ne {e : Entry} (h : e.Proper) :
    e.closing.2 ≠ .wait ∧ Session.isLast e.closing.2 = false := by
  cases e with
  | command l a =>
    obtain ⟨-, rfl | rfl⟩ := h <;> exact ⟨Action.noConfusion, rfl⟩
  | source ls l =>
    rw [closing, Intake.sourceAction]
    split <;> exact ⟨Action.noConfusion, rfl⟩
  | dropped ls => exact ⟨Action.noConfusion, rfl⟩
  | idle => exact ⟨Action.noConfusion, rfl⟩

/-- Entries with the same events are the same. -/
theorem Proper.eq {e f : Entry} (he : e.Proper) (hf : f.Proper) (hlines : e.lines = f.lines)
    (hclosing : e.closing = f.closing) : e = f := by
  obtain ⟨hevent, haction⟩ := Prod.ext_iff.1 hclosing
  cases e with
  | command l a =>
    cases f with
    | command m b =>
      cases hevent
      cases haction
      rfl
    | source ms m =>
      -- alone, a line is a command or a source, never both
      cases hevent
      exact absurd (he.1.symm.trans (hf.2.1 hlines.symm)) (Option.some_ne_none _)
    | dropped ms => cases hevent
    | idle => cases hevent
  | source ls l =>
    cases f with
    | command m b =>
      cases hevent
      exact absurd (hf.1.symm.trans (he.2.1 hlines)) (Option.some_ne_none _)
    | source ms m =>
      cases hevent
      cases hlines
      rfl
    | dropped ms => cases hevent
    | idle => cases hevent
  | dropped ls =>
    cases f with
    | command m b => cases hevent
    | source ms m => cases hevent
    | dropped ms => exact congrArg _ hlines
    | idle => cases haction
  | idle =>
    cases f with
    | command m b => cases hevent
    | source ms m => cases hevent
    | dropped ms => cases haction
    | idle => rfl

end Entry

/-- How a session ends. -/
inductive Ending where
  /-- By a command. -/
  | exit (line : Text)
  | endOfInput
  /-- Not yet: there are no more events. -/
  | none

/-- The event that ends a session. -/
def Ending.steps : Ending → List (InputEvent × Action)
  | .exit l => [(.line l, .leave)]
  | .endOfInput => [(.endOfInput, .finish)]
  | .none => []

/-- A session that ends does not wait. -/
theorem Ending.steps_head (e : Ending) : ∀ p ∈ e.steps.head?, p.2 ≠ .wait := by
  cases e <;> simp [steps]

/-- The steps of an ending tell the ending. -/
theorem Ending.steps_inj {p q : Ending} (h : p.steps = q.steps) : p = q := by
  cases p <;> cases q <;> simp_all [steps]

/-- An account of the events of a session: entries, lines that wait in the end, and the ending. -/
structure Account where
  entries : List Entry := []
  pending : List Text := []
  ending : Ending := .none

namespace Account

/-- The events of an account, each with what the session does after it. -/
def steps (a : Account) : List (InputEvent × Action) :=
  a.entries.flatMap Entry.steps ++ waits a.pending ++ a.ending.steps

/-- Every line of an account is where it belongs. -/
structure Proper (a : Account) : Prop where
  entries : ∀ e ∈ a.entries, e.Proper
  pending : Waiting a.pending
  exit : ∀ l, a.ending = .exit l → a.pending = [] ∧ Intake.command? l = some .leave

/-- An account with an entry before it. -/
def cons (e : Entry) (a : Account) : Account := { a with entries := e :: a.entries }

/-- The steps of an account start with those of its first entry. -/
theorem steps_cons (e : Entry) (a : Account) :
    (a.cons e).steps = waits e.lines ++ e.closing :: a.steps := by
  simp [steps, cons, Entry.steps]

/-- A proper entry in front of a proper account. -/
theorem Proper.cons {e : Entry} {a : Account} (h : a.Proper) (he : e.Proper) :
    (a.cons e).Proper where
  entries := List.forall_mem_cons.2 ⟨he, h.entries⟩
  pending := h.pending
  exit := h.exit

/-- What comes last does not begin with an entry. -/
theorem rest_ne {e : Entry} (he : e.Proper) (ls : List Text) (ending : Ending)
    (r : List (InputEvent × Action)) :
    waits ls ++ ending.steps ≠ waits e.lines ++ e.closing :: r := by
  obtain ⟨hwait, hlast⟩ := he.closing_ne
  intro h
  obtain ⟨-, hend⟩ := waits_append_inj ending.steps_head (by simpa using hwait) h
  cases ending with
  | none => cases hend
  | _ =>
    obtain ⟨heq, -⟩ := List.cons.inj hend
    rw [← heq] at hlast
    cases hlast

/-- Events have one account only. -/
theorem Proper.eq_of_steps {a b : Account} (ha : a.Proper) (hb : b.Proper) (h : a.steps = b.steps) :
    a = b := by
  obtain ⟨entries, ls, p⟩ := a
  obtain ⟨others, ms, q⟩ := b
  replace ha := ha.entries
  replace hb := hb.entries
  dsimp only at ha hb
  induction entries generalizing others with
  | nil =>
    cases others with
    | nil =>
      obtain ⟨rfl, hend⟩ := waits_append_inj p.steps_head q.steps_head h
      rw [Ending.steps_inj hend]
    | cons f others =>
      have hne := rest_ne (hb f List.mem_cons_self) ls p (steps ⟨others, ms, q⟩)
      exact absurd (h.trans (steps_cons f ⟨others, ms, q⟩)) hne
  | cons e entries ih =>
    have he := ha e List.mem_cons_self
    replace h := (steps_cons e ⟨entries, ls, p⟩).symm.trans h
    cases others with
    | nil => exact absurd h.symm (rest_ne he ms q _)
    | cons f others =>
      have hf := hb f List.mem_cons_self
      replace h := h.trans (steps_cons f ⟨others, ms, q⟩)
      obtain ⟨hlines, hrest⟩ := waits_append_inj (by simpa using he.closing_ne.1)
        (by simpa using hf.closing_ne.1) h
      obtain ⟨hclosing, htail⟩ := List.cons.inj hrest
      cases he.eq hf hlines hclosing
      cases ih others htail (fun g hg => ha g (List.mem_cons_of_mem _ hg))
        fun g hg => hb g (List.mem_cons_of_mem _ hg)
      rfl

end Account

end TreeLang
