import TreeLang.Eval.Store
import TreeLang.Proofs.Scope.Discipline
import TreeLang.Proofs.Scope.Forest

/-!
# Frames of a forest under evaluation

Evaluation in a frame of a forest changes that frame and the frames above it only. The frames above
keep exactly their names, the frame itself may gain some, and the evaluation of a sequence leaves
its names as they are too (`Store.eval_frame_discipline`). So what could be looked up before can be
looked up afterwards. All this holds of evaluation that fails as well.
-/

set_option autoImplicit false

namespace TreeLang

namespace Chain

/-- A run under the discipline leaves as many frames as it finds. -/
theorem Disciplined.length_eq {c d : Chain} (h : Disciplined c d) : d.length = c.length := by
  cases h with
  | nil => rfl
  | cons _ hs => rw [List.length_cons, List.length_cons, hs.length_eq]

end Chain

namespace Forest

variable {forest : Forest} {n : Nat} {c : Chain}

/-- A chain of as many frames that was put back consists of the frames now on the path. -/
theorem eq_map_setChain (ho : Ordered forest) (hn : n < forest.length)
    (hc : c.length = (forest.chain n).length) :
    c = (forest.path n).map (forest.setChain n c).frame := by
  refine (map_frame_setFrames _ _ _ (nodup_path ho hn) (fun k hk => lt_of_mem_path ho hn hk) ?_).symm
  rw [hc, chain_eq_map ho hn, List.length_map]

/-- Putting a chain back frame by frame: what relates the chains relates the frames. -/
theorem disciplined_frames (ho : Ordered forest) (hn : n < forest.length)
    (h : Chain.Disciplined (forest.chain n) c) :
    Frame.MoreNames (forest.frame n) ((forest.setChain n c).frame n) ∧
      ∀ a, forest.Above n a →
        Frame.SameNames (forest.frame a) ((forest.setChain n c).frame a) := by
  obtain ⟨up, hup⟩ : ∃ up, forest.path n = n :: up := ⟨_, path_eq ho hn⟩
  have hc := eq_map_setChain ho hn h.length_eq
  generalize forest.setChain n c = after at hc
  rw [hc, chain_eq_map ho hn, hup] at h
  cases h with
  | cons hf hs =>
    rw [Chain.SameNames, List.forall₂_map_left_iff, List.forall₂_map_right_iff,
      List.forall₂_same] at hs
    refine ⟨hf, fun a ha => hs a ?_⟩
    have hmem := (mem_tail_path_iff ho hn).2 ha
    rwa [hup] at hmem

/-- Putting back a chain whose frames all keep their names. -/
theorem sameNames_frame (ho : Ordered forest) (hn : n < forest.length)
    (h : Chain.SameNames (forest.chain n) c) :
    Frame.SameNames (forest.frame n) ((forest.setChain n c).frame n) := by
  have hc := eq_map_setChain ho hn h.disciplined.length_eq
  generalize forest.setChain n c = after at hc
  rw [hc, chain_eq_map ho hn, path_eq ho hn] at h
  cases h with
  | cons hf _ => exact hf

end Forest

/-! ## Evaluation -/

namespace Eval

/-- A run of one tree is the run of the tree. -/
theorem all_single (o : Options) (fuel : Nat) (t : Tree) (m : Machine) :
    all o fuel [some t] m = tree o fuel t m := by
  show (tree o fuel t >>= fun v => pure v) m = _
  cases h : tree o fuel t m with
  | ok v m' => exact bind_ok h
  | error e m' => exact bind_error h

/-- Counting a tree does not change the scope. -/
theorem step_chain (o : Options) (m : Machine) : (final (step o m)).chain = m.chain := by
  unfold step
  cases o.limit with
  | none => rfl
  | some n =>
    dsimp only
    split <;> rfl

/-- A sequence runs in a frame of its own, so the current frame gains no name. -/
theorem tree_seq_sameNames (o : Options) (fuel : Nat) (ts : List Tree) (m : Machine) :
    Chain.SameNames m.chain (final (tree o fuel (.seq ts) m)).chain := by
  cases fuel with
  | zero => exact .refl m.chain
  | succ fuel =>
    have hstep := step_chain o m
    unfold tree
    cases hs : step o m with
    | error e m' =>
      rw [hs] at hstep
      rw [bind_error hs, ← hstep]
      exact .refl _
    | ok u m' =>
      rw [hs] at hstep
      rw [bind_ok hs, ← hstep]
      show Chain.SameNames m'.chain
        (final (inFrame m'.chain.child (inOrder (tree o fuel) ts 0) m')).chain
      rw [inFrame_eq, around_final]
      exact (disciplined_course.trees o fuel ts (enter m'.chain.child m')).tail

end Eval

namespace Store

/-- The store after a tree was evaluated in a frame, with a value or not. -/
def evaluated (s : Store) (n : Nat) (o : Options) (checks : Option Nat) (t : Tree) : Store :=
  s.keep n (Eval.final (evalAll o [some t] (s.machine n checks)))

/-- An evaluation writes back the scope that it leaves, along the path of its frame. -/
theorem evaluated_forest (s : Store) (n : Nat) (o : Options) (checks : Option Nat) (t : Tree) :
    (s.evaluated n o checks t).forest = s.forest.setChain n
      (Eval.final (Eval.tree o o.fuel t (s.machine n checks).restarted)).chain := by
  rw [← Eval.all_single]
  rfl

/-- What the evaluation of a tree in a frame does to a forest. Frames other than that one and those
above it stay as they are; the frames above it bind the same names as before; the frame itself binds
at least its names, and exactly these if the tree is a sequence; no frame has another parent or
another sink than before; and what could be looked up from the frame can be looked up still. -/
theorem eval_frame_discipline (s : Store) (hs : s.forest.Built) {n : Nat}
    (hn : n < s.forest.length) (o : Options) (checks : Option Nat) (t : Tree) :
    let before := s.forest
    let after := (s.evaluated n o checks t).forest
    (∀ i, i ≠ n → ¬ before.Above n i → after[i]? = before[i]?) ∧
      (∀ i, before.Above n i → ∀ x,
        ((after.frame i).vars.binds x ↔ (before.frame i).vars.binds x) ∧
          ((after.frame i).funcs.binds x ↔ (before.frame i).funcs.binds x)) ∧
      (∀ x, ((before.frame n).vars.binds x → (after.frame n).vars.binds x) ∧
        ((before.frame n).funcs.binds x → (after.frame n).funcs.binds x)) ∧
      (after.length = before.length ∧ ∀ i, after.parentOf i = before.parentOf i ∧
        (after.frame i).sink = (before.frame i).sink) ∧
      (t.kind = .seq → ∀ x,
        ((after.frame n).vars.binds x ↔ (before.frame n).vars.binds x) ∧
          ((after.frame n).funcs.binds x ↔ (before.frame n).funcs.binds x)) ∧
      (∀ x, ((before.lookup? n x).isSome → (after.lookup? n x).isSome) ∧
        ((before.lookupFunc? n x).isSome → (after.lookupFunc? n x).isSome)) := by
  intro before after
  have ho : before.Ordered := hs.ordered
  have hafter : after = before.setChain n _ := evaluated_forest s n o checks t
  -- a run sees the scope of its frame only, so the forest changes along that path
  have hchain : Chain.Disciplined (before.chain n) _ :=
    Eval.disciplined_course.tree o o.fuel t (s.machine n checks).restarted
  obtain ⟨hmore, hsame⟩ := Forest.disciplined_frames ho hn hchain
  rw [← hafter] at hmore hsame
  have hother : ∀ i, i ≠ n → ¬ before.Above n i → after[i]? = before[i]? := by
    intro i hi habove
    rw [hafter]
    refine Forest.setFrames_getElem?_of_not_mem _ _ _ fun hmem => ?_
    rcases (Forest.mem_path_iff ho hn).1 hmem with h | h
    · exact hi h
    · exact habove h
  refine ⟨hother, fun i hi x => ?_, fun x => ⟨hmore.vars x, hmore.funcs x⟩, ⟨?_, fun i => ⟨?_, ?_⟩⟩,
    fun hseq x => ?_, fun x => ?_⟩
  · rw [(hsame i hi).vars, (hsame i hi).funcs]
    exact ⟨Iff.rfl, Iff.rfl⟩
  · rw [hafter]
    exact Forest.length_setFrames _ _ _
  · rw [hafter]
    exact Forest.parentOf_setFrames i _ _ _
  · by_cases hi : i = n
    · rw [hi]
      exact hmore.sink
    · by_cases habove : before.Above n i
      · exact (hsame i habove).sink
      · rw [Forest.frame, Forest.frame, hother i hi habove]
  · obtain ⟨ts, rfl⟩ : ∃ ts, t = .seq ts := by
      cases t <;> first | exact ⟨_, rfl⟩ | cases hseq
    have hnames := Forest.sameNames_frame ho hn
      (Eval.tree_seq_sameNames o o.fuel ts (s.machine n checks).restarted)
    rw [← hafter] at hnames
    rw [hnames.vars, hnames.funcs]
    exact ⟨Iff.rfl, Iff.rfl⟩
  · unfold Forest.lookup? Forest.lookupFunc?
    rw [hafter, Forest.chain_setChain ho hn hchain.length_eq]
    exact ⟨hchain.lookup? x, hchain.lookupFunc? x⟩

/-- A root frame with a variable, and two empty frames below it. -/
def forked : Store :=
  { forest := (((Forest.grow [] none).setFrame 0 { vars := [(utf8 "x", 1)] }).grow (some 0)).grow
      (some 0) }

/-- Below the root, a variable of the root is assigned and another one is declared: the root still
binds the first one and does not bind the second, and the frame beside is as it was. -/
theorem eval_frame_discipline_forked :
    let t : Tree := .binary .add (.assign (utf8 "x") (.literal 2)) (.declare (utf8 "y") (.literal 3))
    let after := (forked.evaluated 1 {} none t).forest
    forked.forest.Built ∧ 1 < forked.forest.length ∧ forked.forest.Above 1 0 ∧
      (after.frame 0).vars.binds (utf8 "x") ∧ ¬ (after.frame 0).vars.binds (utf8 "y") ∧
      after[2]? = forked.forest[2]? ∧ (after.lookup? 1 (utf8 "x")).isSome := by
  intro t after
  have hbuilt : forked.forest.Built :=
    .child (.child (.write 0 _ (.root .empty)) (by decide)) (by decide)
  have habove : forked.forest.Above 1 0 := .single rfl
  have hlen : 1 < forked.forest.length := by decide
  have hnot : ¬ forked.forest.Above 1 2 := fun h => absurd (h.lt hbuilt.ordered) (by decide)
  obtain ⟨hother, hup, -, -, -, hlookup⟩ :=
    eval_frame_discipline forked hbuilt hlen {} none t
  refine ⟨hbuilt, hlen, habove, ?_, ?_, hother 2 (by decide) hnot, (hlookup (utf8 "x")).1 ?_⟩
  · exact (hup 0 habove (utf8 "x")).1.2 (by decide)
  · exact fun h => absurd ((hup 0 habove (utf8 "y")).1.1 h) (by decide)
  · decide

end Store

end TreeLang
