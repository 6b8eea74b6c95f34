import TreeLang.Proofs.Eval.Conduct
import TreeLang.Proofs.Eval.Frames

/-!
# Where the output goes, and where it ends

Every frame has a sink. A frame that is entered has the sink of the frame in use, and a function
body runs below its caller and not where the function was defined; so all that a run prints goes to
the sink of the frame in which the run was started (`Eval.all_prints`).

A sink may have room for so many lines only. Two runs of the same code, of which the second one has
no end of room, do the same until the first one finds its sink full. So the first one ends as the
second one does if there is room for all that is printed, and otherwise it is halted with as many
lines printed as there was room for (`Store.eval_cutByRoom`).
-/

set_option autoImplicit false

namespace TreeLang

/-! ## Sinks -/

namespace Sink

/-- The values that were printed to a sink, in their order. -/
def values (s : Sink) : List Int64 := s.printed.reverse

/-- The second sink is the first one after the values were printed to it. -/
structure Takes (s : Sink) (vs : List Int64) (t : Sink) : Prop where
  values : t.values = s.values ++ vs
  room : s.room = t.room.map (· + vs.length)

theorem takes_nil (s : Sink) : s.Takes [] s where
  values := (List.append_nil _).symm
  room := Option.map_id_apply.symm

/-- What a sink takes in two parts it takes in all. -/
theorem Takes.trans {s t u : Sink} {vs ws : List Int64} (h : s.Takes vs t) (k : t.Takes ws u) :
    s.Takes (vs ++ ws) u where
  values := by rw [k.values, h.values, List.append_assoc]
  room := by
    rw [h.room, k.room, Option.map_map]
    congr 1
    funext n
    rw [Function.comp_apply, List.length_append, Nat.add_assoc, Nat.add_comm ws.length]

/-- A sink takes no more values than it has room for. -/
theorem Takes.length_le {s t : Sink} {vs : List Int64} (h : s.Takes vs t) {k : Nat}
    (hk : s.room = some k) : vs.length ≤ k := by
  have hroom := h.room
  rw [hk] at hroom
  obtain ⟨left, -, hleft⟩ := Option.map_eq_some_iff.1 hroom.symm
  exact hleft ▸ Nat.le_add_left _ _

theorem Takes.length_printed {s t : Sink} {vs : List Int64} (h : s.Takes vs t) :
    t.printed.length = s.printed.length + vs.length := by
  have hlength := congrArg List.length h.values
  rwa [Sink.values, Sink.values, List.length_append, List.length_reverse, List.length_reverse]
    at hlength

/-- A print is taken if there is room, and otherwise the sink is full. -/
theorem print?_takes (s : Sink) (v : Int64) :
    (∃ t, s.print? v = some t ∧ s.Takes [v] t) ∨ s.print? v = none ∧ s.room = some 0 := by
  obtain ⟨printed, room⟩ := s
  cases room with
  | none => exact Or.inl ⟨_, rfl, List.reverse_cons, rfl⟩
  | some k =>
    cases k with
    | zero => exact Or.inr ⟨rfl, rfl⟩
    | succ k => exact Or.inl ⟨_, rfl, List.reverse_cons, rfl⟩

end Sink

/-! ## One sink for a run -/

theorem Chain.SameNames.sink {c d : Chain} (h : SameNames c d) : d.sink = c.sink :=
  h.disciplined.sink

/-- No frame changes its sink, wherever it is in the scope. -/
theorem Chain.Disciplined.sink_drop {c d : Chain} (h : Disciplined c d) (i : Nat) :
    Chain.sink (d.drop i) = Chain.sink (c.drop i) := by
  cases i with
  | zero => exact h.sink
  | succ i =>
    have htail : SameNames (c.tail.drop i) (d.tail.drop i) := List.forall₂_drop i h.tail
    rw [List.drop_tail, List.drop_tail] at htail
    exact htail.sink

namespace Eval

variable {α : Type}

/-- What a run that was started on a machine has done to the sinks so far: the sink of its frame has
taken some values, and no other sink has changed. -/
structure PrintedSince (start m : Machine) : Prop where
  elsewhere : ∀ k, k ≠ start.chain.sink → m.sinks.get k = start.sinks.get k
  here : ∃ vs, (start.sinks.get start.chain.sink).Takes vs (m.sinks.get start.chain.sink)

theorem PrintedSince.refl (m : Machine) : PrintedSince m m := ⟨fun _ _ => rfl, [], Sink.takes_nil _⟩

/-- All along a run, the frames that were entered have the sink of the frame at the start, and that
is where the output goes. A run that finds a sink full finds this one full. -/
def printing (start : Machine) : Conduct where
  machine d m := (∀ i ≤ d, Chain.sink (m.chain.drop i) = start.chain.sink) ∧ PrintedSince start m
  frame f := f.sink = start.chain.sink
  tree _ := True
  func _ := True
  halt h m := PrintedSince start m ∧
    (h = .error .sinkFull → (m.sinks.get start.chain.sink).room = some 0)

theorem printing_mayRun (start : Machine) (t : Option Tree) : (printing start).mayRun t := by
  apply Conduct.mayRun_of_forall
  · exact fun _ => trivial
  · exact fun _ _ hm => ⟨hm.2, fun h => by cases h⟩

/-- What neither changes the sinks nor finds one full. -/
def Silent (x : Eval α) : Prop :=
  ∀ m, match x m with
    | .ok _ m' => m'.sinks = m.sinks
    | .error h m' => m'.sinks = m.sinks ∧ h ≠ .error .sinkFull

theorem silent_step (o : Options) : Silent (step o) := by
  intro m
  cases hl : o.limit with
  | none => simp [step, hl]
  | some n => by_cases hn : n < m.steps + 1 <;> simp [step, hl, hn]

theorem silent_check : Silent check := by
  intro m
  rcases hc : m.checks with _ | _ | k <;> simp [check, hc]

theorem silent_lookup (x : Text) : Silent (lookup x) := by
  intro m
  cases hx : m.chain.lookup? x <;> simp [lookup, hx]

theorem silent_lookupFunc (f : Text) : Silent (lookupFunc f) := by
  intro m
  cases hf : m.chain.lookupFunc? f <;> simp [lookupFunc, hf]

theorem silent_declare (x : Text) (v : Int64) : Silent (declare x v) := by
  intro m
  cases hx : m.chain.declare? x v <;> simp [declare, hx]

theorem silent_assign (x : Text) (v : Int64) : Silent (assign x v) := by
  intro m
  cases hx : m.chain.assign? x v <;> simp [assign, hx]

theorem PrintedSince.of_sinks {start m m' : Machine} (h : PrintedSince start m)
    (hs : m'.sinks = m.sinks) : PrintedSince start m' where
  elsewhere k hk := by rw [hs, h.elsewhere k hk]
  here := by
    rw [hs]
    exact h.here

/-- What prints nothing keeps to what was printed since the start. -/
theorem Silent.keeps {start : Machine} {d : Nat} {x : Eval α} (hx : Silent x)
    (hchain : Moves (fun a b => Chain.Disciplined a.chain b.chain) x) :
    (printing start).Keeps d (fun _ => True) x := by
  rintro m ⟨hframes, hprinted⟩
  have hs := hx m
  have hc := hchain m
  cases hr : x m with
  | ok a m' =>
    rw [hr] at hs hc
    exact .ok trivial ⟨fun i hi => (hc.sink_drop i).trans (hframes i hi), hprinted.of_sinks hs⟩
  | error e m' =>
    rw [hr] at hs
    exact .error ⟨hprinted.of_sinks hs.1, fun he => absurd he hs.2⟩

/-- Printing goes to the sink of the frame in use, which is that of the frame at the start. -/
theorem print_keeps (start : Machine) (d : Nat) (v : Int64) :
    (printing start).Keeps d (fun _ => True) (print v) := by
  rintro m ⟨hframes, hprinted⟩
  have hsink : m.chain.sink = start.chain.sink := hframes 0 (Nat.zero_le d)
  obtain ⟨vs, htakes⟩ := hprinted.here
  rw [print, hsink]
  rcases (m.sinks.get start.chain.sink).print?_takes v with ⟨t, ht, hv⟩ | ⟨ht, hroom⟩
  · rw [ht]
    refine .ok trivial ⟨hframes, fun k hk => ?_, vs ++ [v], ?_⟩
    · show (m.sinks.set start.chain.sink t).get k = _
      rw [Sinks.get_set, if_neg hk, hprinted.elsewhere k hk]
    · show Sink.Takes _ _ ((m.sinks.set start.chain.sink t).get start.chain.sink)
      rw [Sinks.get_set, if_pos rfl]
      exact htakes.trans hv
  · rw [ht]
    exact .error ⟨hprinted, fun _ => hroom⟩

/-- All parts of a run print to the sink of the frame at the start, since a new frame has the sink
of the one it is entered from. -/
theorem kept_printing (start : Machine) (o : Options) : (printing start).Kept o where
  inside _ _ := trivial
  body _ := printing_mayRun start _
  outOfFuel hm := ⟨hm.2, fun h => by cases h⟩
  duplicate hm _ _ := ⟨hm.2, fun h => by cases h⟩
  step _ := (silent_step o).keeps (disciplined_course.step o)
  check _ := silent_check.keeps disciplined_course.check
  lookup _ x _ := (silent_lookup x).keeps (disciplined_course.lookup x)
  lookupFunc _ f _ _ := (silent_lookupFunc f).keeps (disciplined_course.lookupFunc f)
  declare _ x _ v _ := (silent_declare x v).keeps (disciplined_course.declare x v)
  assign _ x _ v _ := (silent_assign x v).keeps (disciplined_course.assign x v)
  define _ f ps b _ :=
    Silent.keeps (x := define f ⟨f, ps, some b⟩) (fun _ => rfl) (disciplined_course.define f _)
  print d v := print_keeps start d v
  child hm := hm.1 0 (Nat.zero_le _)
  bind hf hd := (declare?_sink hd).trans hf
  enter := by
    rintro d m f ⟨hframes, hprinted⟩ hf
    refine ⟨fun i hi => ?_, hprinted.of_sinks rfl⟩
    cases i with
    | zero => exact hf
    | succ i => exact hframes i (Nat.le_of_succ_le_succ hi)
  leave := by
    rintro d m ⟨hframes, hprinted⟩
    refine ⟨fun i hi => ?_, hprinted.of_sinks rfl⟩
    show Chain.sink (m.chain.tail.drop i) = _
    rw [List.drop_tail]
    exact hframes (i + 1) (Nat.succ_le_succ hi)
  enterBody _ _ hm := ⟨hm.1, hm.2.of_sinks rfl⟩
  leaveBody hm := ⟨hm.1, hm.2.of_sinks rfl⟩
  haltLeave hm := ⟨hm.1.of_sinks rfl, hm.2⟩
  haltLeaveBody hm := ⟨hm.1.of_sinks rfl, hm.2⟩

/-- What a run does to the sinks: it prints to that of its frame, leaves the others as they are, and
is halted by a full sink only if this one is full. -/
theorem all_prints (o : Options) (fuel : Nat) (ts : List (Option Tree)) (m : Machine) :
    PrintedSince m (final (all o fuel ts m)) ∧
      ∀ m', all o fuel ts m = .error (.error .sinkFull) m' →
        (m'.sinks.get m.chain.sink).room = some 0 := by
  have hstart : (printing m).machine 0 m := by
    refine ⟨fun i hi => ?_, .refl m⟩
    rw [Nat.le_zero.1 hi]
    rfl
  have hend := ((kept_printing m o).all fuel fun t (_ : t ∈ ts) => printing_mayRun m t).ends hstart
  generalize all o fuel ts m = r at hend
  cases hend with
  | ok _ hm => exact ⟨hm.2, fun _ h => by cases h⟩
  | error hh =>
    refine ⟨hh.1, fun m' h => ?_⟩
    cases h
    exact hh.2 rfl

end Eval

/-! ## Room -/

/-- The same sink, but perhaps with no end of room. -/
def Sink.Roomier (s t : Sink) : Prop := t.printed = s.printed ∧ (t.room = none ∨ t.room = s.room)

/-- Both sinks take a value, or both are full, or only the one with less room is. -/
theorem Sink.Roomier.print? {s t : Sink} (h : s.Roomier t) (v : Int64) :
    (∃ s' t', s.print? v = some s' ∧ t.print? v = some t' ∧ s'.Roomier t') ∨
      s.print? v = none ∧ (t.print? v = none ∨ ∃ t', t.print? v = some t') := by
  obtain ⟨printed, room⟩ := s
  obtain ⟨printed', room'⟩ := t
  obtain ⟨rfl, rfl | rfl⟩ := h
  · rcases room with _ | _ | k
    · exact Or.inl ⟨_, _, rfl, rfl, rfl, Or.inl rfl⟩
    · exact Or.inr ⟨rfl, Or.inr ⟨_, rfl⟩⟩
    · exact Or.inl ⟨_, _, rfl, rfl, rfl, Or.inl rfl⟩
  · rcases room' with _ | _ | k
    · exact Or.inl ⟨_, _, rfl, rfl, rfl, Or.inr rfl⟩
    · exact Or.inr ⟨rfl, Or.inl rfl⟩
    · exact Or.inl ⟨_, _, rfl, rfl, rfl, Or.inr rfl⟩

namespace Sink

theorem Roomier.values {s t : Sink} (h : s.Roomier t) : t.values = s.values :=
  congrArg List.reverse h.1

variable {s t s' t' : Sink} {us vs : List Int64}

/-- Sinks that are alike before and afterwards have taken the same. -/
theorem Takes.eq_of_roomier (hs : s.Takes us s') (ht : t.Takes vs t') (h : s.Roomier t)
    (h' : s'.Roomier t') : vs = us := by
  have hvalues := h'.values
  rwa [ht.values, hs.values, h.values, List.append_cancel_left_eq] at hvalues

/-- A sink that is full has taken what there was room for of what went on in the other one. -/
theorem Takes.eq_take (hs : s.Takes us s') (ht : t.Takes vs t') (h : s.Roomier t) {k : Nat}
    (hk : s.room = some k) (hfull : s'.room = some 0) (hsuffix : s'.printed <:+ t'.printed)
    (hlt : s'.printed.length < t'.printed.length) : k < vs.length ∧ us = vs.take k := by
  have hlength : us.length = k := by
    have hroom := hs.room
    rw [hk, hfull] at hroom
    simpa using hroom.symm
  have hstart : us <+: vs := by
    have hvalues : s'.values <+: t'.values := List.reverse_prefix.2 hsuffix
    rwa [hs.values, ht.values, h.values, List.prefix_append_right_inj] at hvalues
  rw [hs.length_printed, ht.length_printed, h.1] at hlt
  refine ⟨by omega, ?_⟩
  rw [← hlength]
  exact List.prefix_iff_eq_take.1 hstart

end Sink

namespace Eval

open Machine (Extends)

/-- Machines that are the same but for the room in their sinks, of which the second one has more. -/
def Roomier (a b : Machine) : Prop :=
  ∃ sinks, b = { a with sinks := sinks } ∧ ∀ k, (a.sinks.get k).Roomier (sinks.get k)

theorem sameScope_roomier : SameScope Roomier where
  chain := by
    rintro a _ ⟨sinks, rfl, -⟩
    rfl
  withChain := by
    rintro a _ c ⟨sinks, rfl, hs⟩
    exact ⟨sinks, rfl, hs⟩

/-- What the first run has printed is where the output of the second one starts, and the second one
has printed more. -/
def Lag.short : Lag where
  behind a b := Extends a b ∧
    ∃ k, (a.sinks.get k).printed.length < (b.sinks.get k).printed.length
  extends_ h he := by
    obtain ⟨hab, k, hk⟩ := h
    exact ⟨hab.trans he, k, hk.trans_le (he k).length_le⟩
  sinks hs h := by
    refine ⟨(Extends.of_sinks hs.symm).trans h.1, ?_⟩
    rw [hs]
    exact h.2

/-- Two runs of the same code, of which the first one is cut when it finds a sink full. -/
def roomier : Coupling := sameCode Roomier (· = .error .sinkFull) .short

/-- A value that the first sink has no room for cuts the first run short, which the second one may
have printed. -/
theorem agrees_print_roomier (d : Nat) (v : Int64) : Agrees roomier d Eq (print v) (print v) := by
  rintro a _ ⟨sinks, rfl, hs⟩
  have hset : ∀ {s' t' : Sink}, s'.Roomier t' →
      Roomier { a with sinks := a.sinks.set a.chain.sink s' }
        { a with sinks := sinks.set a.chain.sink t' } :=
    fun h => ⟨_, rfl, Sinks.forall_get_set (P := fun _ => Sink.Roomier) hs h⟩
  unfold print
  dsimp only
  rcases (hs a.chain.sink).print? v with ⟨s', t', hs', ht', h⟩ | ⟨hs', ht' | ⟨t', ht'⟩⟩
  · rw [hs', ht']
    exact .ok rfl (hset h)
  · rw [hs', ht']
    exact .error rfl ⟨sinks, rfl, hs⟩
  · rw [hs', ht']
    refine .cut rfl ⟨fun k => ?_, a.chain.sink, ?_⟩
    · show _ <:+ ((sinks.set a.chain.sink t').get k).printed
      rw [Sinks.get_set]
      by_cases hk : k = a.chain.sink
      · rw [if_pos hk, hk, Sink.print?_printed ht', (hs a.chain.sink).1]
        exact List.suffix_cons v _
      · rw [if_neg hk, (hs k).1]
    · show _ < ((sinks.set a.chain.sink t').get a.chain.sink).printed.length
      rw [Sinks.get_set, if_pos rfl, Sink.print?_printed ht', (hs a.chain.sink).1]
      exact Nat.lt_succ_self _

/-- A run with more room does what the run with less room does, as long as there is room. -/
theorem simulation_roomier (o : Options) : Simulation roomier o o := by
  apply simulation_sameCode sameScope_roomier
  · intro d
    apply agrees_step 0
    · exact Option.map_id_apply.symm
    · exact fun _ => rfl
    · rintro a _ ⟨sinks, rfl, hs⟩
      exact ⟨rfl, fun _ => ⟨sinks, rfl, hs⟩⟩
  · intro d
    apply agrees_check rfl
    rintro a _ ⟨sinks, rfl, hs⟩
    exact ⟨rfl, fun _ => ⟨sinks, rfl, hs⟩⟩
  · exact agrees_print_roomier
  · rintro a _ f n ⟨sinks, rfl, hs⟩
    exact ⟨sinks, rfl, hs⟩
  · rintro a _ ⟨sinks, rfl, hs⟩
    exact ⟨sinks, rfl, hs⟩
  · rintro ⟨⟩

/-- Runs from machines of which the second one has more room end alike, or the first one finds a
sink full. -/
theorem all_roomier (o : Options) (fuel : Nat) (ts : List (Option Tree)) {a b : Machine}
    (h : Roomier a b) : Agree roomier 0 Eq (all o fuel ts a) (all o fuel ts b) :=
  ((simulation_roomier o).all (Or.inl rfl) 0 (Tree.forall₂_rel_eq ts)).agrees h

/-- A run in a sink with so much room, and one in a sink with no end of it. They end alike if there
is room for what the second one prints, and otherwise the first one is halted when it has printed
what there is room for. -/
theorem all_truncated (o : Options) (fuel : Nat) (ts : List (Option Tree)) {a b : Machine}
    (h : Roomier a b) {k : Nat} (hk : (a.sinks.get a.chain.sink).room = some k) {vs : List Int64}
    (hvs : (b.sinks.get a.chain.sink).Takes vs
      ((final (all o fuel ts b)).sinks.get a.chain.sink)) :
    vs.length ≤ k ∧ outcomeOf (all o fuel ts a) = outcomeOf (all o fuel ts b) ∧
        Roomier (final (all o fuel ts a)) (final (all o fuel ts b)) ∨
      k < vs.length ∧ outcomeOf (all o fuel ts a) = .error (.error .sinkFull) ∧
        (a.sinks.get a.chain.sink).Takes (vs.take k)
          ((final (all o fuel ts a)).sinks.get a.chain.sink) := by
  obtain ⟨⟨helse, us, hus⟩, hfull⟩ := all_prints o fuel ts a
  have helse' := (all_prints o fuel ts b).1.elsewhere
  rw [sameScope_roomier.chain h] at helse'
  have hagree := all_roomier o fuel ts h
  have hstart : ∀ j, (a.sinks.get j).Roomier (b.sinks.get j) := by
    obtain ⟨sinks, rfl, hs⟩ := h
    exact hs
  generalize all o fuel ts a = ra at *
  generalize all o fuel ts b = rb at *
  -- Runs that end alike have printed the same, so there was room for it.
  have halike : Roomier (final ra) (final rb) → vs.length ≤ k := by
    rintro ⟨sinks, hb, hs⟩
    rw [hb] at hvs
    rw [hus.eq_of_roomier hvs (hstart _) (hs _)]
    exact hus.length_le hk
  cases hagree with
  | ok hv hm => exact Or.inl ⟨halike hm, congrArg Except.ok hv, hm⟩
  | error hh hm => exact Or.inl ⟨halike hm, congrArg Except.error hh, hm⟩
  | @cut e a' _ hc hlag =>
    cases hc
    obtain ⟨hext, j, hj⟩ := hlag
    have hsink : j = a.chain.sink := by
      by_contra hne
      have ha : a'.sinks.get j = a.sinks.get j := helse j hne
      rw [ha, helse' j hne, (hstart j).1] at hj
      exact Nat.lt_irrefl _ hj
    rw [hsink] at hj
    obtain ⟨hlt, heq⟩ := hus.eq_take hvs (hstart _) hk (hfull a' rfl) (hext _) hj
    exact Or.inr ⟨hlt, rfl, heq ▸ hus⟩

end Eval

/-! ## Evaluation in a frame -/

/-- The sink of a chain is that of the frame it starts with. -/
theorem Forest.sink_chain (forest : Forest) (n : Nat) :
    (forest.chain n).sink = (forest.frame n).sink := by
  unfold chain path frame pathIn
  cases hn : forest[n]? with
  | none => rfl
  | some m => cases hp : m.parent <;> simp [Chain.sink, hn, hp]

/-- The values that a run leaves in a sink, in their order. Their lines are the text of the sink. -/
def valuesOf (r : EStateM.Result Halt Machine Int64) (sink : Nat) : List Int64 :=
  ((Eval.final r).sinks.get sink).values

namespace Store

/-- The sink to which the prints of a frame go. -/
def sinkOf (s : Store) (n : Nat) : Nat := (s.forest.frame n).sink

/-- The store with another room in the sink of a frame, or with no end of it. -/
def withRoom (s : Store) (n : Nat) (room : Option Nat) : Store :=
  { s with sinks := s.sinks.set (s.sinkOf n) { s.sinks.get (s.sinkOf n) with room := room } }

/-- What sinks and their room do to runs that start in a frame of a store. -/
structure CutByRoom (s : Store) (n : Nat) (run : Store → EStateM.Result Halt Machine Int64) :
    Prop where
  /-- No sink but that of the frame is written to. -/
  elsewhere : ∀ k, k ≠ s.sinkOf n → (Eval.final (run s)).sinks.get k = s.sinks.get k
  /-- If the sink of the frame takes as many lines as are printed with no end of room, the run ends
  with the same value or halt, output and frames as with no end of room. If it does not, the run is
  halted by the full sink, with as many of these lines printed as the sink takes. -/
  truncated : ∃ vs,
    valuesOf (run (s.withRoom n none)) (s.sinkOf n) = (s.sinks.get (s.sinkOf n)).values ++ vs ∧
    (∀ k, vs.length ≤ k →
      outcomeOf (run (s.withRoom n (some k))) = outcomeOf (run (s.withRoom n none)) ∧
      valuesOf (run (s.withRoom n (some k))) (s.sinkOf n) =
        valuesOf (run (s.withRoom n none)) (s.sinkOf n) ∧
      (s.keep n (Eval.final (run (s.withRoom n (some k))))).forest =
        (s.keep n (Eval.final (run (s.withRoom n none)))).forest) ∧
    ∀ k, k < vs.length →
      outcomeOf (run (s.withRoom n (some k))) = .error (.error .sinkFull) ∧
      valuesOf (run (s.withRoom n (some k))) (s.sinkOf n) =
        (s.sinks.get (s.sinkOf n)).values ++ vs.take k

/-- Giving room to the sink of a frame changes that sink only. -/
theorem get_withRoom (s : Store) (n : Nat) (room : Option Nat) (j : Nat) :
    (s.withRoom n room).sinks.get j =
      if j = s.sinkOf n then { s.sinks.get j with room := room } else s.sinks.get j := by
  show (Sinks.set _ _ _).get j = _
  rw [Sinks.get_set]
  split
  · subst_vars
    rfl
  · rfl

theorem room_withRoom (s : Store) (n : Nat) (room : Option Nat) :
    ((s.withRoom n room).sinks.get (s.sinkOf n)).room = room := by
  rw [get_withRoom, if_pos rfl]

theorem values_withRoom (s : Store) (n : Nat) (room : Option Nat) :
    ((s.withRoom n room).sinks.get (s.sinkOf n)).values = (s.sinks.get (s.sinkOf n)).values := by
  rw [get_withRoom, if_pos rfl]
  rfl

/-- A sink with no end of room is roomier than any. -/
theorem roomier_withRoom (s : Store) (n : Nat) (room : Option Nat) (checks : Option Nat) :
    Eval.Roomier ((s.withRoom n room).machine n checks).restarted
      ((s.withRoom n none).machine n checks).restarted := by
  refine ⟨(s.withRoom n none).sinks, rfl, fun j => ?_⟩
  show Sink.Roomier ((s.withRoom n room).sinks.get j) _
  rw [get_withRoom, get_withRoom]
  split
  · exact ⟨rfl, Or.inl rfl⟩
  · exact ⟨rfl, Or.inr rfl⟩

/-- Room only ever cuts a run short: what is printed with room for all says what is printed with
less. -/
theorem all_cutByRoom (s : Store) (n : Nat) (o : Options) (fuel : Nat) (checks : Option Nat)
    (ts : List (Option Tree)) :
    s.CutByRoom n fun s => Eval.all o fuel ts (s.machine n checks).restarted := by
  have hsink : ∀ room, ((s.withRoom n room).machine n checks).restarted.chain.sink = s.sinkOf n :=
    fun _ => s.forest.sink_chain n
  constructor
  · intro k hk
    have hchain : (s.machine n checks).restarted.chain.sink = s.sinkOf n := s.forest.sink_chain n
    exact (Eval.all_prints o fuel ts _).1.elsewhere k (hchain ▸ hk)
  · obtain ⟨vs, hvs⟩ :=
      (Eval.all_prints o fuel ts ((s.withRoom n none).machine n checks).restarted).1.here
    have hends : ∀ k, _ := fun k =>
      Eval.all_truncated o fuel ts (s.roomier_withRoom n (some k) checks)
        ((hsink (some k)).symm ▸ s.room_withRoom n (some k)) hvs
    simp only [hsink] at hvs hends
    refine ⟨vs, ?_, fun k hk => ?_, fun k hk => ?_⟩
    · rw [valuesOf, hvs.values]
      exact congrArg (· ++ vs) (s.values_withRoom n none)
    · rcases hends k with ⟨-, hout, sinks, hm, hs⟩ | ⟨hlt, -⟩
      · refine ⟨hout, ?_, ?_⟩
        · rw [valuesOf, valuesOf, hm]
          exact (hs _).values.symm
        · rw [keep, keep, hm]
      · omega
    · rcases hends k with ⟨hle, -⟩ | ⟨-, hout, htakes⟩
      · omega
      · refine ⟨hout, ?_⟩
        rw [valuesOf, htakes.values]
        exact congrArg (· ++ vs.take k) (s.values_withRoom n (some k))

/-- Trees that are evaluated in a frame of a store, whatever sinks the frames have, print to the
sink of this frame only, also in the functions of frames with other sinks; and a sink that takes so
many lines only cuts the evaluation short at the line after these. -/
theorem eval_cutByRoom (s : Store) (n : Nat) (o : Options) (checks : Option Nat)
    (ts : List (Option Tree)) :
    s.CutByRoom n (fun s => evalAll o ts (s.machine n checks)) ∧
      ∀ fuel, s.CutByRoom n fun s => Eval.all o fuel ts (s.machine n checks).restarted :=
  ⟨s.all_cutByRoom n o o.fuel checks ts, fun fuel => s.all_cutByRoom n o fuel checks ts⟩

end Store

end TreeLang
