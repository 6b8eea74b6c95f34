import TreeLang.Eval.Machine
import TreeLang.Proofs.Scope.Discipline
import TreeLang.Proofs.Scope.Forest

/-!
# Nearest binders

From a frame of a forest, a name means what the nearest frame on the way up to the root says that
binds it. Here this is said by the way itself and not by a search: `Forest.Clear` is a way up that
leaves no binder behind, and `Forest.Nearest` is such a way that ends at a binder.

The three operations that write pick their frame in three different ways. Assigning takes the
nearest binder, declaring the frame itself, and defining a function the nearest binder or else the
frame itself. Each of them comes down to putting one frame in the place of another
(`assign?_eq_some`, `declare?_eq_some`, `defineFunc_eq`), and what such a replacement does to
lookups is said once, for variables and functions alike (`resolve_setFrame`). Together they give
what an operation does to a lookup from any frame of the forest, be it above, below or beside the
one where the operation is made (`Forest.nearest_binder_laws`).
-/

set_option autoImplicit false

namespace TreeLang

/-! ## Chains -/

namespace Chain

/-- A variable is looked up in the first frame that binds it. -/
theorem lookup?_eq_findSome? (c : Chain) (x : Text) :
    c.lookup? x = c.findSome? fun f => f.vars.get? x := by
  induction c with
  | nil => rfl
  | cons f up ih =>
    rw [lookup?, List.findSome?_cons, ih]
    cases f.vars.get? x <;> rfl

theorem lookupFunc?_eq_findSome? (c : Chain) (x : Text) :
    c.lookupFunc? x = c.findSome? fun f => f.funcs.get? x := by
  induction c with
  | nil => rfl
  | cons f up ih =>
    rw [lookupFunc?, List.findSome?_cons, ih]
    cases f.funcs.get? x <;> rfl

/-- Rewrite the nearest frame that binds. -/
def rewrite? (B : Frame → Bool) (w : Frame → Frame) : Chain → Option Chain
  | [] => none
  | f :: up => if B f then some (w f :: up) else (rewrite? B w up).map (f :: ·)

/-- An assignment writes to the first frame that binds the variable. -/
theorem assign?_eq_rewrite? (c : Chain) (x : Text) (v : Int64) :
    c.assign? x v = c.rewrite? (·.vars.binds x) fun f => { f with vars := f.vars.set x v } := by
  induction c with
  | nil => rfl
  | cons f up ih => rw [assign?, rewrite?, ih]

theorem replaceFunc?_eq_rewrite? (c : Chain) (x : Text) (g : Function) :
    c.replaceFunc? x g = c.rewrite? (·.funcs.binds x) fun f => { f with funcs := f.funcs.set x g } := by
  induction c with
  | nil => rfl
  | cons f up ih => rw [replaceFunc?, rewrite?, ih]

/-- In a chain of numbered frames, the frame that is rewritten is the first one that binds. -/
theorem rewrite?_map (B : Frame → Bool) (w : Frame → Frame) (frame : Nat → Frame) {ns : List Nat}
    (hns : ns.Nodup) :
    rewrite? B w (ns.map frame) = (ns.find? fun i => B (frame i)).map fun k =>
      ns.map (Function.update frame k (w (frame k))) := by
  induction ns with
  | nil => rfl
  | cons n ns ih =>
    obtain ⟨hn, hns⟩ := List.nodup_cons.1 hns
    rw [List.map_cons, rewrite?, List.find?_cons]
    by_cases hB : B (frame n)
    · have hrest : ns.map (Function.update frame n (w (frame n))) = ns.map frame := by
        refine List.map_congr_left fun i hi => ?_
        have hin : i ≠ n := fun h => hn (h ▸ hi)
        exact Function.update_of_ne hin _ _
      simp [hB, hrest]
    · have hne : ∀ k ∈ ns.find? (fun i => B (frame i)), n ≠ k := by
        rintro k hk rfl
        exact hn (List.mem_of_find?_eq_some hk)
      simp only [hB, Bool.false_eq_true, if_false, ih hns, Option.map_map]
      refine Option.map_congr fun k hk => ?_
      rw [Function.comp_apply, List.map_cons, Function.update_of_ne (hne k hk)]

end Chain

namespace Forest

variable {α : Type} {forest : Forest} {B : Frame → Bool} {n k e d : Nat}

/-! ## Ways up -/

/-- There is a way up from the first frame to the second one, and it leaves no frame behind that
binds. The second frame itself may bind or not. -/
def Clear (forest : Forest) (B : Frame → Bool) (n k : Nat) : Prop :=
  Relation.ReflTransGen (fun i p => forest.parentOf i = some p ∧ ¬ B (forest.frame i)) n k

/-- From the first frame, the second one is the nearest that binds. -/
def Nearest (forest : Forest) (B : Frame → Bool) (n k : Nat) : Prop :=
  forest.Clear B n k ∧ B (forest.frame k)

/-- A way up is clear if it is no way at all, or the frame is no binder and the way from its parent
is clear. -/
theorem clear_iff : forest.Clear B n k ↔
    n = k ∨ ∃ p, (forest.parentOf n = some p ∧ ¬ B (forest.frame n)) ∧ forest.Clear B p k :=
  Relation.ReflTransGen.cases_head_iff

/-- The nearest binder is the frame itself, or that of its parent. -/
theorem nearest_iff : forest.Nearest B n k ↔
    n = k ∧ B (forest.frame n) ∨
      ¬ B (forest.frame n) ∧ ∃ p, forest.parentOf n = some p ∧ forest.Nearest B p k := by
  unfold Nearest
  rw [clear_iff]
  constructor
  · rintro ⟨rfl | ⟨p, ⟨hp, hn⟩, h⟩, hk⟩
    · exact Or.inl ⟨rfl, hk⟩
    · exact Or.inr ⟨hn, p, hp, h, hk⟩
  · rintro (⟨rfl, hn⟩ | ⟨hn, p, hp, h, hk⟩)
    · exact ⟨Or.inl rfl, hn⟩
    · exact ⟨Or.inr ⟨p, ⟨hp, hn⟩, h⟩, hk⟩

/-- What follows for a frame from its parent holds of every frame. -/
theorem Ordered.upward (ho : Ordered forest) {P : Nat → Prop}
    (h : ∀ n < forest.length, (∀ p < forest.length, forest.parentOf n = some p → P p) → P n) :
    ∀ n < forest.length, P n := by
  intro n
  induction n using Nat.strongRecOn with
  | ind n ih =>
    intro hn
    refine h n hn fun p hp hparent => ?_
    exact ih p (ho hparent) hp

theorem lt_of_parentOf (ho : Ordered forest) {p : Nat} (hn : n < forest.length)
    (hp : forest.parentOf n = some p) : p < forest.length :=
  Nat.lt_trans (ho hp) hn

/-- The nearest frame that binds is the first one on the path. -/
theorem find?_path_iff (ho : Ordered forest) :
    ∀ n < forest.length,
      ((forest.path n).find? (fun i => B (forest.frame i)) = some k ↔ forest.Nearest B n k) := by
  refine ho.upward fun n hn ih => ?_
  rw [path_eq ho hn, nearest_iff, List.find?_cons]
  by_cases hB : B (forest.frame n)
  · simp [hB]
  · cases hp : forest.parentOf n with
    | none => simp [hB]
    | some p => simp [hB, ih p (lt_of_parentOf ho hn hp) hp]

/-- There is at most one nearest binder. -/
theorem Nearest.unique (ho : Ordered forest) (hn : n < forest.length) {j : Nat}
    (hj : forest.Nearest B n j) (hk : forest.Nearest B n k) : j = k := by
  rw [← find?_path_iff ho n hn] at hj hk
  exact Option.some.inj (hj.symm.trans hk)

/-! ## Replacing one frame -/

/-- Forests with as many frames, the same frames and the same parents are the same. -/
theorem ext_frames {after : Forest} (hl : after.length = forest.length)
    (hp : ∀ i, after.parentOf i = forest.parentOf i)
    (hf : ∀ i < forest.length, after.frame i = forest.frame i) : after = forest := by
  refine List.ext_getElem hl fun i hi hi' => ?_
  have hframe := hf i hi'
  have hparent := hp i
  simp only [frame, parentOf, List.getElem?_eq_getElem hi, List.getElem?_eq_getElem hi',
    Option.map_some, Option.getD_some, Option.bind_some] at hframe hparent
  generalize after[i] = m at *
  generalize forest[i] = m' at *
  cases m
  cases m'
  cases hframe
  cases hparent
  rfl

/-- A frame that is put in a place is the one there, and all others are as before. -/
theorem frame_setFrame (hk : k < forest.length) (g : Frame) :
    (forest.setFrame k g).frame = Function.update forest.frame k g := by
  funext i
  by_cases hi : i = k
  · rw [hi, frame_setFrame_self hk, Function.update_self]
  · rw [Function.update_of_ne hi, frame, frame, setFrame_getElem?]
    cases forest[i]? with
    | none => rfl
    | some m => simp [Ne.symm hi]

theorem Ordered.setFrame (ho : Ordered forest) (k : Nat) (g : Frame) :
    Ordered (forest.setFrame k g) := by
  intro n p hp
  rw [parentOf_setFrame] at hp
  exact ho hp

/-- Putting back a chain in which one frame is another one replaces this frame of the forest. -/
theorem setChain_update (ho : Ordered forest) (hn : n < forest.length) (hk : k ∈ forest.path n)
    (g : Frame) :
    forest.setChain n ((forest.path n).map (Function.update forest.frame k g)) =
      forest.setFrame k g := by
  have hpath : ∀ i ∈ forest.path n, i < forest.length := fun i hi => lt_of_mem_path ho hn hi
  apply ext_frames
  · rw [setChain, length_setFrames, length_setFrame]
  · intro i
    rw [setChain, parentOf_setFrames, parentOf_setFrame]
  · intro i _
    rw [frame_setFrame (hpath k hk)]
    -- On the path the frames are those of the chain; the other ones were not touched.
    by_cases hi : i ∈ forest.path n
    · have hmap := map_frame_setFrames (forest.path n) forest
        ((forest.path n).map (Function.update forest.frame k g)) (nodup_path ho hn) hpath
        (List.length_map _)
      exact List.map_inj_left.1 hmap i hi
    · have hik : i ≠ k := fun h => hi (h ▸ hk)
      rw [setChain, frame_setFrames_of_not_mem _ _ _ hi, Function.update_of_ne hik]

/-! ## The frames that are written to -/

/-- Rewriting the nearest frame that binds, as seen from a frame. -/
theorem map_setChain_rewrite? (ho : Ordered forest) (he : e < forest.length) (w : Frame → Frame)
    (after : Forest) :
    ((forest.chain e).rewrite? B w).map (forest.setChain e) = some after ↔
      ∃ k, forest.Nearest B e k ∧ after = forest.setFrame k (w (forest.frame k)) := by
  rw [chain_eq_map ho he, Chain.rewrite?_map B w forest.frame (nodup_path ho he), Option.map_map,
    Option.map_eq_some_iff]
  refine exists_congr fun k => ?_
  rw [find?_path_iff ho e he]
  refine and_congr_right fun hk => ?_
  have hmem : k ∈ forest.path e := List.mem_of_find?_eq_some ((find?_path_iff ho e he).2 hk)
  rw [Function.comp_apply, setChain_update ho he hmem]
  exact eq_comm

/-- An assignment succeeds if there is a binder above, and writes to the nearest one. -/
theorem assign?_eq_some (ho : Ordered forest) (he : e < forest.length) {x : Text} {v : Int64}
    {after : Forest} :
    forest.assign? e x v = some after ↔ ∃ k, forest.Nearest (·.vars.binds x) e k ∧
      after = forest.setFrame k { forest.frame k with vars := (forest.frame k).vars.set x v } := by
  rw [assign?, Chain.assign?_eq_rewrite?]
  exact map_setChain_rewrite? ho he _ after

/-- Putting back a chain with another frame in the first place. -/
theorem setChain_cons (ho : Ordered forest) (he : e < forest.length) {up : Chain}
    (hup : forest.chain e = forest.frame e :: up) (g : Frame) :
    forest.setChain e (g :: up) = forest.setFrame e g := by
  -- The first frame is the nearest one if every frame counts as a binder.
  have hfirst : ((forest.chain e).rewrite? (fun _ => true) fun _ => g).map (forest.setChain e) =
      some (forest.setChain e (g :: up)) := by
    rw [hup]
    rfl
  obtain ⟨k, hk, hset⟩ := (map_setChain_rewrite? ho he _ _).1 hfirst
  rcases nearest_iff.1 hk with ⟨rfl, -⟩ | ⟨hn, -⟩
  · exact hset
  · exact absurd rfl hn

theorem chain_eq_cons (ho : Ordered forest) (he : e < forest.length) :
    ∃ up, forest.chain e = forest.frame e :: up := by
  rw [chain_eq_map ho he, path_eq ho he]
  exact ⟨_, rfl⟩

/-- A declaration succeeds if the frame does not bind the variable yet, and writes to the frame. -/
theorem declare?_eq_some (ho : Ordered forest) (he : e < forest.length) {x : Text} {v : Int64}
    {after : Forest} :
    forest.declare? e x v = some after ↔ ¬ (forest.frame e).vars.binds x ∧
      after = forest.setFrame e { forest.frame e with vars := (forest.frame e).vars.set x v } := by
  obtain ⟨up, hup⟩ := chain_eq_cons ho he
  rw [declare?, hup, Chain.declare?, Frame.declare?]
  by_cases hx : (forest.frame e).vars.binds x
  · simp [hx]
  · rw [if_neg hx]
    show some (forest.setChain e (_ :: up)) = some after ↔ _
    rw [setChain_cons ho he hup, Option.some.injEq, and_iff_right hx]
    exact eq_comm

/-- A function is defined in the nearest frame that binds its name, and in the frame itself if there
is none. -/
theorem defineFunc_eq (ho : Ordered forest) (he : e < forest.length) (x : Text) (g : Function) :
    ∃ w, (forest.Nearest (·.funcs.binds x) e w ∨
        w = e ∧ ∀ k, ¬ forest.Nearest (·.funcs.binds x) e k) ∧
      forest.defineFunc e x g =
        forest.setFrame w { forest.frame w with funcs := (forest.frame w).funcs.set x g } := by
  have hrewrite := fun after => map_setChain_rewrite? (B := (·.funcs.binds x)) ho he
    (fun f => { f with funcs := f.funcs.set x g }) after
  rw [← Chain.replaceFunc?_eq_rewrite?] at hrewrite
  rw [defineFunc, Chain.defineFunc]
  cases hc : (forest.chain e).replaceFunc? x g with
  | some c =>
    rw [hc] at hrewrite
    obtain ⟨k, hk, hset⟩ := (hrewrite _).1 rfl
    exact ⟨k, Or.inl hk, hset⟩
  | none =>
    rw [hc] at hrewrite
    obtain ⟨up, hup⟩ := chain_eq_cons ho he
    refine ⟨e, Or.inr ⟨rfl, fun k hk => ?_⟩, ?_⟩
    · cases (hrewrite _).2 ⟨k, hk, rfl⟩
    · rw [hup]
      exact setChain_cons ho he hup _

/-! ## Lookups -/

/-- What the nearest frame says that says something, as seen from a frame. -/
def resolve (forest : Forest) (get : Frame → Option α) (n : Nat) : Option α :=
  (forest.chain n).findSome? get

/-- Looking up a variable resolves it from a frame upwards. -/
theorem lookup?_eq_resolve (forest : Forest) (n : Nat) (x : Text) :
    forest.lookup? n x = forest.resolve (·.vars.get? x) n :=
  Chain.lookup?_eq_findSome? _ _

theorem lookupFunc?_eq_resolve (forest : Forest) (n : Nat) (x : Text) :
    forest.lookupFunc? n x = forest.resolve (·.funcs.get? x) n :=
  Chain.lookupFunc?_eq_findSome? _ _

variable {get : Frame → Option α}

/-- A frame answers by itself, or else by its parent. -/
theorem resolve_eq (ho : Ordered forest) (hn : n < forest.length) :
    forest.resolve get n =
      (get (forest.frame n)).or ((forest.parentOf n).bind fun p => forest.resolve get p) := by
  rw [resolve, chain_eq_map ho hn, path_eq ho hn, List.map_cons, List.findSome?_cons]
  cases get (forest.frame n) with
  | some a => rfl
  | none =>
    cases hp : forest.parentOf n with
    | none => rfl
    | some p =>
      rw [Option.bind_some, resolve, chain_eq_map ho (lt_of_parentOf ho hn hp)]
      rfl

/-- There is an answer if and only if there is a nearest frame that binds. -/
theorem resolve_isSome_iff (ho : Ordered forest) :
    ∀ n < forest.length, ((forest.resolve get n).isSome ↔
      ∃ k, forest.Nearest (fun f => (get f).isSome) n k) := by
  refine ho.upward fun n hn ih => ?_
  rw [resolve_eq ho hn]
  simp only [nearest_iff (n := n)]
  cases hget : get (forest.frame n) with
  | some a => simp
  | none =>
    cases hp : forest.parentOf n with
    | none => simp
    | some p => simpa using ih p (lt_of_parentOf ho hn hp) hp

/-- Replacing a frame by one that says the same makes no difference. -/
theorem resolve_setFrame_of_eq (ho : Ordered forest) (hk : k < forest.length) {g : Frame}
    (hg : get g = get (forest.frame k)) :
    ∀ n < forest.length, (forest.setFrame k g).resolve get n = forest.resolve get n := by
  have hframe : ∀ i, get ((forest.setFrame k g).frame i) = get (forest.frame i) := by
    intro i
    rw [frame_setFrame hk, Function.update_apply]
    split
    · rename_i hi
      rw [hg, hi]
    · rfl
  refine ho.upward fun n hn ih => ?_
  have hn' : n < (forest.setFrame k g).length := by rwa [length_setFrame]
  rw [resolve_eq (ho.setFrame k g) hn', resolve_eq ho hn, hframe, parentOf_setFrame]
  cases hp : forest.parentOf n with
  | none => rfl
  | some p => simp only [Option.bind_some, ih p (lt_of_parentOf ho hn hp) hp]

/-- Replacing a frame by one that binds: its answer is seen from the frames with a clear way up to
it, and all other frames see what they saw. -/
theorem resolve_setFrame (ho : Ordered forest) (hk : k < forest.length) {g : Frame} {a : α}
    (hg : get g = some a) :
    ∀ n < forest.length,
      (forest.Clear (fun f => (get f).isSome) n k → (forest.setFrame k g).resolve get n = some a) ∧
      (¬ forest.Clear (fun f => (get f).isSome) n k →
        (forest.setFrame k g).resolve get n = forest.resolve get n) := by
  refine ho.upward fun n hn ih => ?_
  have hn' : n < (forest.setFrame k g).length := by rwa [length_setFrame]
  rw [resolve_eq (ho.setFrame k g) hn', resolve_eq ho hn, parentOf_setFrame, frame_setFrame hk,
    clear_iff]
  by_cases hnk : n = k
  · simp [hnk, hg]
  · rw [Function.update_of_ne hnk]
    cases hget : get (forest.frame n) with
    | some b => simp [hnk]
    | none =>
      cases hp : forest.parentOf n with
      | none => simp [hnk]
      | some p => simpa [hnk] using ih p (lt_of_parentOf ho hn hp) hp

/-- A way up to a frame is clear or not whatever this frame itself binds. -/
theorem clear_setFrame_iff (ho : Ordered forest) (hk : k < forest.length) (g : Frame) :
    ∀ n < forest.length, ((forest.setFrame k g).Clear B n k ↔ forest.Clear B n k) := by
  refine ho.upward fun n hn ih => ?_
  rw [clear_iff, clear_iff (n := n), parentOf_setFrame, frame_setFrame hk]
  by_cases hnk : n = k
  · simp [hnk]
  · rw [Function.update_of_ne hnk]
    refine or_congr_right (exists_congr fun p => and_congr_right fun hp => ?_)
    exact ih p (lt_of_parentOf ho hn hp.1) hp.1

/-! ## What a write does to lookups -/

/-- What has become of the lookups from all frames when a name was given a meaning: the frames that
see the write find the new meaning, the other ones what they found before, and for other names
nothing has changed. -/
structure Written (look : Forest → Nat → Text → Option α) (before after : Forest) (x : Text) (a : α)
    (sees : Nat → Prop) : Prop where
  seen : ∀ d < before.length, sees d → look after d x = some a
  unseen : ∀ d < before.length, ¬ sees d → look after d x = look before d x
  others : ∀ d < before.length, ∀ y, y ≠ x → look after d y = look before d y

/-- A frame that is replaced by one which differs in the meaning of a name: the write is seen from
the frames with a clear way up to it. -/
theorem written_setFrame (ho : Ordered forest) (hk : k < forest.length) {g : Frame}
    {look : Forest → Nat → Text → Option α} {get : Text → Frame → Option α}
    (hlook : ∀ forest n y, look forest n y = resolve forest (get y) n) {x : Text} {a : α}
    (hg : ∀ y, get y g = if y = x then some a else get y (forest.frame k)) :
    Written look forest (forest.setFrame k g) x a
      fun d => forest.Clear (fun f => (get x f).isSome) d k := by
  have hx : get x g = some a := (hg x).trans (if_pos rfl)
  constructor
  · intro d hd hclear
    rw [hlook]
    exact (resolve_setFrame ho hk hx d hd).1 hclear
  · intro d hd hclear
    rw [hlook, hlook]
    exact (resolve_setFrame ho hk hx d hd).2 hclear
  · intro d hd y hy
    rw [hlook, hlook]
    exact resolve_setFrame_of_eq ho hk ((hg y).trans (if_neg hy)) d hd

/-- A variable that is set in a frame is seen by the frames that have a clear way up to it. -/
theorem written_setVar (ho : Ordered forest) (hk : k < forest.length) (x : Text) (v : Int64) :
    Written lookup? forest
      (forest.setFrame k { forest.frame k with vars := (forest.frame k).vars.set x v }) x v
      fun d => forest.Clear (·.vars.binds x) d k :=
  written_setFrame ho hk lookup?_eq_resolve fun y => Bindings.get?_set _ x y v

/-- A function that is set in a frame is seen by the frames that have a clear way up to it. -/
theorem written_setFunc (ho : Ordered forest) (hk : k < forest.length) (x : Text) (g : Function) :
    Written lookupFunc? forest
      (forest.setFrame k { forest.frame k with funcs := (forest.frame k).funcs.set x g }) x g
      fun d => forest.Clear (·.funcs.binds x) d k :=
  written_setFrame ho hk lookupFunc?_eq_resolve fun y => Bindings.get?_set _ x y g

/-- Variables that are set hide no functions. -/
theorem lookupFunc?_setVars (ho : Ordered forest) (hk : k < forest.length) (vars : Bindings Int64)
    (y : Text) : ∀ d < forest.length,
      (forest.setFrame k { forest.frame k with vars := vars }).lookupFunc? d y =
        forest.lookupFunc? d y := by
  simp only [lookupFunc?_eq_resolve]
  apply resolve_setFrame_of_eq ho hk
  rfl

/-- Functions that are set hide no variables. -/
theorem lookup?_setFuncs (ho : Ordered forest) (hk : k < forest.length) (funcs : Bindings Function)
    (y : Text) : ∀ d < forest.length,
      (forest.setFrame k { forest.frame k with funcs := funcs }).lookup? d y =
        forest.lookup? d y := by
  simp only [lookup?_eq_resolve]
  apply resolve_setFrame_of_eq ho hk
  rfl

theorem Nearest.lt (ho : Ordered forest) (he : e < forest.length) (h : forest.Nearest B e k) :
    k < forest.length :=
  lt_of_mem_path ho he (List.mem_of_find?_eq_some ((find?_path_iff ho e he).2 h))

/-- A variable can be assigned from a frame if and only if it can be looked up there. -/
theorem assign?_isSome_iff (ho : Ordered forest) (he : e < forest.length) (x : Text) (v : Int64) :
    (forest.assign? e x v).isSome ↔ (forest.lookup? e x).isSome := by
  rw [lookup?_eq_resolve, resolve_isSome_iff ho e he, Option.isSome_iff_exists]
  simp only [assign?_eq_some ho he]
  constructor
  · rintro ⟨after, k, hk, -⟩
    exact ⟨k, hk⟩
  · rintro ⟨k, hk⟩
    exact ⟨_, k, hk, rfl⟩

/-- An assignment is seen by the frames with the same nearest binder, which are those with a clear
way up to it. -/
theorem written_assign? (ho : Ordered forest) (he : e < forest.length) {x : Text} {v : Int64}
    {after : Forest} (h : forest.assign? e x v = some after) :
    Written lookup? forest after x v (fun d =>
        ∃ k, forest.Nearest (·.vars.binds x) d k ∧ forest.Nearest (·.vars.binds x) e k) ∧
      ∀ d < forest.length, ∀ y, after.lookupFunc? d y = forest.lookupFunc? d y := by
  obtain ⟨k, hk, rfl⟩ := (assign?_eq_some ho he).1 h
  have hlt := hk.lt ho he
  have hsees : ∀ d, (∃ j, forest.Nearest (·.vars.binds x) d j ∧
      forest.Nearest (·.vars.binds x) e j) ↔ forest.Clear (·.vars.binds x) d k := by
    intro d
    constructor
    · rintro ⟨j, hd, hj⟩
      rw [← hj.unique ho he hk]
      exact hd.1
    · intro hd
      exact ⟨k, ⟨hd, hk.2⟩, hk⟩
  simp only [hsees]
  exact ⟨written_setVar ho hlt x v, fun d hd y => lookupFunc?_setVars ho hlt _ y d hd⟩

/-- A declaration is seen by the frames with a clear way up to the frame of the declaration. -/
theorem written_declare? (ho : Ordered forest) (he : e < forest.length) {x : Text} {v : Int64}
    {after : Forest} (h : forest.declare? e x v = some after) :
    Written lookup? forest after x v (fun d => forest.Clear (·.vars.binds x) d e) ∧
      ∀ d < forest.length, ∀ y, after.lookupFunc? d y = forest.lookupFunc? d y := by
  obtain ⟨-, rfl⟩ := (declare?_eq_some ho he).1 h
  exact ⟨written_setVar ho he x v, fun d hd y => lookupFunc?_setVars ho he _ y d hd⟩

/-- A function is seen where its name now leads to the frame that was written to. -/
theorem written_defineFunc (ho : Ordered forest) (he : e < forest.length) (x : Text)
    (g : Function) :
    let after := forest.defineFunc e x g
    ∃ w, (forest.Nearest (·.funcs.binds x) e w ∨
        w = e ∧ ∀ k, ¬ forest.Nearest (·.funcs.binds x) e k) ∧
      (∀ i, i ≠ w → after[i]? = forest[i]?) ∧ after.Nearest (·.funcs.binds x) e w ∧
      Written lookupFunc? forest after x g (fun d => after.Nearest (·.funcs.binds x) d w) ∧
      ∀ d < forest.length, ∀ y, after.lookup? d y = forest.lookup? d y := by
  intro after
  obtain ⟨w, hw, hafter⟩ := defineFunc_eq ho he x g
  have hlt : w < forest.length := by
    rcases hw with hw | ⟨rfl, -⟩
    · exact hw.lt ho he
    · exact he
  have hclear : forest.Clear (·.funcs.binds x) e w := by
    rcases hw with hw | ⟨rfl, -⟩
    · exact hw.1
    · exact .refl
  have hbinds : (after.frame w).funcs.binds x := by
    show ((forest.defineFunc e x g).frame w).funcs.binds x
    rw [hafter, frame_setFrame_self hlt, Bindings.binds_set]
    simp
  -- Now that the frame binds the name, the ways up that are clear to it are those that lead to it.
  have hsees : ∀ d < forest.length,
      (after.Nearest (·.funcs.binds x) d w ↔ forest.Clear (·.funcs.binds x) d w) := by
    intro d hd
    rw [Nearest, and_iff_left hbinds]
    show (forest.defineFunc e x g).Clear _ d w ↔ _
    rw [hafter]
    exact clear_setFrame_iff ho hlt _ d hd
  refine ⟨w, hw, fun i hi => ?_, (hsees e he).2 hclear, ?_, fun d hd y => ?_⟩
  · show (forest.defineFunc e x g)[i]? = _
    rw [hafter, setFrame_getElem?]
    cases forest[i]? <;> simp [Ne.symm hi]
  · have hwritten := written_setFunc ho hlt x g
    rw [← hafter] at hwritten
    exact ⟨fun d hd h => hwritten.seen d hd ((hsees d hd).1 h),
      fun d hd h => hwritten.unseen d hd fun hd' => h ((hsees d hd).2 hd'), hwritten.others⟩
  · show (forest.defineFunc e x g).lookup? d y = _
    rw [hafter]
    exact lookup?_setFuncs ho hlt _ y d hd

/-- The operations on scopes are operations on nearest binders. From every frame of every forest that
can be built:

- Assigning succeeds where the variable can be looked up, and is seen from the frames that have the
  same nearest binder of the variable.
- Declaring succeeds where the frame itself does not bind the variable, and is seen from this frame
  and those below it that have a clear way up to it.
- Defining a function always succeeds and is seen from the frame. It writes to one frame, the nearest
  that binds the name or else the frame itself, and is seen where the name now leads there.
- From all other frames the name means what it meant before, and so do, from every frame, all other
  names and the same name in the other namespace.
- Where assigning or declaring fails, the machine that evaluates in the frame is left as it was. -/
theorem nearest_binder_laws (forest : Forest) (hf : forest.Built) {e : Nat} (he : e < forest.length)
    (x : Text) (v : Int64) (g : Function) :
    ((forest.assign? e x v).isSome ↔ (forest.lookup? e x).isSome) ∧
      (∀ after, forest.assign? e x v = some after →
        Written lookup? forest after x v (fun d =>
          ∃ k, forest.Nearest (·.vars.binds x) d k ∧ forest.Nearest (·.vars.binds x) e k) ∧
        ∀ d < forest.length, ∀ y, after.lookupFunc? d y = forest.lookupFunc? d y) ∧
      ((forest.declare? e x v).isSome ↔ ¬ (forest.frame e).vars.binds x) ∧
      (∀ after, forest.declare? e x v = some after →
        Written lookup? forest after x v (fun d => forest.Clear (·.vars.binds x) d e) ∧
        ∀ d < forest.length, ∀ y, after.lookupFunc? d y = forest.lookupFunc? d y) ∧
      (∀ after, forest.defineFunc e x g = after → after.lookupFunc? e x = some g ∧
        ∃ w, (forest.Nearest (·.funcs.binds x) e w ∨
            w = e ∧ ∀ k, ¬ forest.Nearest (·.funcs.binds x) e k) ∧
          (∀ i, i ≠ w → after[i]? = forest[i]?) ∧
          Written lookupFunc? forest after x g (fun d => after.Nearest (·.funcs.binds x) d w) ∧
          ∀ d < forest.length, ∀ y, after.lookup? d y = forest.lookup? d y) ∧
      (∀ m : Machine, m.chain = forest.chain e →
        (forest.assign? e x v = none →
          Eval.assign x v m = .error (.error (.undefinedVar x)) m) ∧
        (forest.declare? e x v = none →
          Eval.declare x v m = .error (.error (.duplicate x)) m)) := by
  have ho : Ordered forest := hf.ordered
  refine ⟨assign?_isSome_iff ho he x v, fun after h => written_assign? ho he h, ?_,
    fun after h => written_declare? ho he h, ?_, fun m hm => ⟨fun h => ?_, fun h => ?_⟩⟩
  · simp only [Option.isSome_iff_exists, declare?_eq_some ho he, exists_and_left, exists_eq,
      and_true]
  · rintro _ rfl
    obtain ⟨w, hw, hother, hnearest, hwritten, hvars⟩ := written_defineFunc ho he x g
    exact ⟨hwritten.seen e he hnearest, w, hw, hother, hwritten, hvars⟩
  · rw [assign?, Option.map_eq_none_iff] at h
    rw [Eval.assign, hm, h]
  · rw [declare?, Option.map_eq_none_iff] at h
    rw [Eval.declare, hm, h]

/-- A root that binds a name as a variable and as a function, a frame below it that binds the
variable again, an empty frame below that one, and an empty frame below the root. -/
def branched : Forest :=
  let root := (Forest.grow [] none).setFrame 0
    { vars := [(utf8 "x", 1)], funcs := [(utf8 "x", ⟨utf8 "x", [], some (.literal 0)⟩)] }
  (((root.grow (some 0)).setFrame 1 { vars := [(utf8 "x", 2)] }).grow (some 1)).grow (some 0)

/-- Assigning from the frame at the bottom is seen in the frame above it, but neither in the root
nor in the frame beside; declaring there is seen nowhere else. -/
theorem nearest_binder_laws_branched :
    let x := utf8 "x"
    let g : Function := ⟨x, [], some (.literal 5)⟩
    branched.Built ∧ 2 < branched.length ∧
      (∃ after, branched.assign? 2 x 20 = some after ∧ after.lookup? 1 x = some 20 ∧
        after.lookup? 0 x = some 1 ∧ after.lookup? 3 x = some 1) ∧
      (∃ after, branched.declare? 2 x 30 = some after ∧ after.lookup? 2 x = some 30 ∧
        after.lookup? 1 x = some 2) ∧
      (branched.defineFunc 2 x g).lookupFunc? 2 x = some g ∧
      (branched.defineFunc 2 x g).lookup? 1 x = some 2 := by
  intro x g
  have hbuilt : branched.Built :=
    .child (.child (.write 1 _ (.child (.write 0 _ (.root .empty)) (by decide))) (by decide))
      (by decide)
  have ho : Ordered branched := hbuilt.ordered
  have h0 : branched.Nearest (·.vars.binds x) 0 0 := (find?_path_iff ho 0 (by decide)).1 rfl
  have h1 : branched.Nearest (·.vars.binds x) 1 1 := (find?_path_iff ho 1 (by decide)).1 rfl
  have h2 : branched.Nearest (·.vars.binds x) 2 1 := (find?_path_iff ho 2 (by decide)).1 rfl
  have h3 : branched.Nearest (·.vars.binds x) 3 0 := (find?_path_iff ho 3 (by decide)).1 rfl
  -- From a frame whose nearest binder is the root, an assignment from the bottom is not seen.
  have hunseen : ∀ {d}, d < branched.length → branched.Nearest (·.vars.binds x) d 0 →
      ¬ ∃ k, branched.Nearest (·.vars.binds x) d k ∧ branched.Nearest (·.vars.binds x) 2 k := by
    rintro d hd hroot ⟨k, hdk, h2k⟩
    have hk0 : k = 0 := hdk.unique ho hd hroot
    have hk1 : k = 1 := h2k.unique ho (by decide) h2
    omega
  have hbelow : ¬ branched.Clear (·.vars.binds x) 1 2 := by
    intro h
    rcases clear_iff.1 h with h | ⟨p, ⟨-, hn⟩, -⟩
    · omega
    · exact hn h1.2
  obtain ⟨hassign, hassigned, -, -, hdefined, -⟩ :=
    nearest_binder_laws branched hbuilt (e := 2) (by decide) x 20 g
  obtain ⟨-, -, -, hdeclared, -⟩ := nearest_binder_laws branched hbuilt (e := 2) (by decide) x 30 g
  obtain ⟨after, hafter⟩ := Option.isSome_iff_exists.1 (hassign.2 rfl)
  have hwritten := (hassigned after hafter).1
  refine ⟨hbuilt, by decide, ⟨after, hafter, ?_, ?_, ?_⟩, ?_, (hdefined _ rfl).1, ?_⟩
  · exact hwritten.seen 1 (by decide) ⟨1, h1, h2⟩
  · exact hwritten.unseen 0 (by decide) (hunseen (by decide) h0)
  · exact hwritten.unseen 3 (by decide) (hunseen (by decide) h3)
  · have hok : (branched.declare? 2 x 30).isSome := rfl
    obtain ⟨after', hafter'⟩ := Option.isSome_iff_exists.1 hok
    have hwritten' := (hdeclared after' hafter').1
    exact ⟨after', hafter', hwritten'.seen 2 (by decide) .refl,
      hwritten'.unseen 1 (by decide) hbelow⟩
  · obtain ⟨-, w, -, -, -, hvars⟩ := hdefined _ rfl
    exact hvars 1 (by decide) x

end Forest

end TreeLang
