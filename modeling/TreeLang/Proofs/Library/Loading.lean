import TreeLang.Proofs.Library.Recursion
import TreeLang.Proofs.Scope.Binders

/-!
# Loading the library

Loading evaluates definitions, one after the other, and each one writes its function to the nearest
frame that binds the name already, or else to the frame in which the library is loaded. So it
depends on the scope where a definition goes: some may replace functions far up, while others are
new. What it comes to does not depend on that. The library is laid over the scope: from the frame
its names mean its functions, and no other name of a function and no variable means anything else
than before, from any frame (`Forest.Overlaid`).

The names of the library differ from each other, so no definition undoes another one. Hence they are
all in place in the end, and loading once more changes nothing (`Store.loadLibrary_overlay`).
-/

set_option autoImplicit false

namespace TreeLang

/-- Bind a name to what it is bound to. -/
theorem Bindings.set_eq_self {α : Type} {x : Text} {a : α} :
    ∀ {b : Bindings α}, b.get? x = some a → b.set x a = b
  | [], h => by cases h
  | (y, c) :: r, h => by
    rw [get?_cons] at h
    rw [set]
    by_cases hy : y = x
    · rw [if_pos hy.symm] at h
      rw [if_pos hy, Option.some.inj h]
    · rw [if_neg (Ne.symm hy)] at h
      rw [if_neg hy, set_eq_self h]

namespace Chain

/-- Define functions one after the other, each under its own name. -/
def defineAll (c : Chain) (gs : List Function) : Chain := gs.foldl (fun c g => c.defineFunc g.name g) c

theorem defineAll_append (c : Chain) (gs hs : List Function) :
    c.defineAll (gs ++ hs) = (c.defineAll gs).defineAll hs := List.foldl_append

/-- A function that a name means already is replaced by itself. -/
theorem replaceFunc?_eq_self {x : Text} {g : Function} :
    ∀ {c : Chain}, c.lookupFunc? x = some g → c.replaceFunc? x g = some c
  | [], h => by cases h
  | f :: up, h => by
    rw [lookupFunc?] at h
    rw [replaceFunc?]
    cases hf : f.funcs.get? x with
    | some g' =>
      rw [hf] at h
      cases h
      rw [if_pos (by simp [Bindings.binds, hf]), Bindings.set_eq_self hf]
    | none =>
      rw [hf] at h
      rw [if_neg (by simp [Bindings.binds, hf]), replaceFunc?_eq_self h]
      rfl

/-- Defining a function again as it is bound changes nothing. -/
theorem defineFunc_eq_self {c : Chain} {x : Text} {g : Function} (h : c.lookupFunc? x = some g) :
    c.defineFunc x g = c := by
  rw [defineFunc, replaceFunc?_eq_self h, Option.getD_some]

theorem length_defineFunc (c : Chain) (x : Text) (g : Function) :
    (c.defineFunc x g).length = c.length := (Disciplined.defineFunc c x g).length_eq

theorem length_defineAll (c : Chain) (gs : List Function) : (c.defineAll gs).length = c.length := by
  induction gs generalizing c with
  | nil => rfl
  | cons g gs ih => exact (ih _).trans (c.length_defineFunc g.name g)

end Chain

/-! ## Definitions in a forest -/

namespace Forest

variable {forest : Forest} {n : Nat}

/-- Define functions in a frame one after the other, each under its own name. -/
def defineAll (forest : Forest) (n : Nat) (gs : List Function) : Forest :=
  gs.foldl (fun forest g => forest.defineFunc n g.name g) forest

theorem Ordered.setChain (ho : Ordered forest) (n : Nat) (c : Chain) : Ordered (forest.setChain n c) := by
  intro i p h
  rw [Forest.setChain, parentOf_setFrames] at h
  exact ho h

theorem length_setChain (forest : Forest) (n : Nat) (c : Chain) :
    (forest.setChain n c).length = forest.length := length_setFrames _ _ _

/-- The frames of the path are those of the chain that was put back, and the other ones are as they
were. -/
theorem frame_setChain (ho : Ordered forest) (hn : n < forest.length) {c : Chain}
    (hc : c.length = (forest.chain n).length) :
    (forest.path n).map (forest.setChain n c).frame = c ∧
      ∀ i, i ∉ forest.path n → (forest.setChain n c).frame i = forest.frame i := by
  refine ⟨?_, fun i hi => frame_setFrames_of_not_mem _ _ _ hi⟩
  apply map_frame_setFrames _ _ _ (nodup_path ho hn) fun k hk => lt_of_mem_path ho hn hk
  rw [hc, chain_eq_map ho hn, List.length_map]

/-- Putting back the chain that is there. -/
theorem setChain_chain (ho : Ordered forest) (hn : n < forest.length) :
    forest.setChain n (forest.chain n) = forest := by
  obtain ⟨hpath, hother⟩ := frame_setChain ho hn (c := forest.chain n) rfl
  nth_rewrite 2 [chain_eq_map ho hn] at hpath
  apply ext_frames
  · exact length_setChain _ _ _
  · exact fun i => parentOf_setFrames i _ _ _
  · intro i _
    by_cases hi : i ∈ forest.path n
    · exact List.map_inj_left.1 hpath i hi
    · exact hother i hi

/-- Of two chains that are put back in turn the second one counts. -/
theorem setChain_setChain (ho : Ordered forest) (hn : n < forest.length) {c d : Chain}
    (hc : c.length = (forest.chain n).length) (hd : d.length = (forest.chain n).length) :
    (forest.setChain n c).setChain n d = forest.setChain n d := by
  have ho' : Ordered (forest.setChain n c) := ho.setChain n c
  have hn' : n < (forest.setChain n c).length := by rwa [length_setChain]
  have hsame : (forest.setChain n c).path n = forest.path n :=
    path_congr ho (length_setChain _ _ _) (fun i => parentOf_setFrames i _ _ _) hn
  have hd' : d.length = ((forest.setChain n c).chain n).length := by
    rw [chain_setChain ho hn hc, hc, hd]
  obtain ⟨hpath, hother⟩ := frame_setChain ho' hn' hd'
  obtain ⟨hpath', hother'⟩ := frame_setChain ho hn hd
  rw [hsame] at hpath hother
  apply ext_frames
  · rw [length_setChain, length_setChain, length_setChain]
  · intro i
    simp only [setChain, parentOf_setFrames]
  · intro i _
    by_cases hi : i ∈ forest.path n
    · exact List.map_inj_left.1 (hpath.trans hpath'.symm) i hi
    · rw [hother i hi, hother' i hi, (frame_setChain ho hn hc).2 i hi]

theorem Ordered.defineFunc (ho : Ordered forest) (n : Nat) (x : Text) (g : Function) :
    Ordered (forest.defineFunc n x g) := ho.setChain n _

theorem length_defineFunc (forest : Forest) (n : Nat) (x : Text) (g : Function) :
    (forest.defineFunc n x g).length = forest.length := length_setChain _ _ _

/-- Defining functions in the chain of a frame and putting it back defines them in the frame. -/
theorem setChain_defineAll (gs : List Function) (ho : Ordered forest) (hn : n < forest.length) :
    forest.setChain n ((forest.chain n).defineAll gs) = forest.defineAll n gs := by
  induction gs generalizing forest with
  | nil => exact setChain_chain ho hn
  | cons g gs ih =>
    have hone := Chain.length_defineFunc (forest.chain n) g.name g
    have hchain : (forest.defineFunc n g.name g).chain n = (forest.chain n).defineFunc g.name g :=
      chain_setChain ho hn hone
    have hrest := ih (ho.defineFunc n g.name g) (by rwa [length_defineFunc])
    have hlength := (Chain.length_defineAll ((forest.chain n).defineFunc g.name g) gs).trans hone
    rw [hchain, defineFunc, setChain_setChain ho hn hone hlength] at hrest
    exact hrest

/-! ## Overlays -/

/-- The second forest is the first one with functions laid over it in a frame: it has the same
frames with the same variables, only the frame itself may have new names of functions, and from no
frame does a name mean another function, unless one with this name was laid over. -/
structure Overlaid (before after : Forest) (n : Nat) (names : List Text) : Prop where
  length : after.length = before.length
  parents : ∀ i, after.parentOf i = before.parentOf i
  vars : ∀ i, (after.frame i).vars = (before.frame i).vars
  sinks : ∀ i, (after.frame i).sink = (before.frame i).sink
  binders : ∀ i, i ≠ n → ∀ x, (after.frame i).funcs.binds x = (before.frame i).funcs.binds x
  others : ∀ x, x ∉ names → ∀ i < before.length, after.lookupFunc? i x = before.lookupFunc? i x

theorem Overlaid.refl (forest : Forest) (n : Nat) : Overlaid forest forest n [] :=
  ⟨rfl, fun _ => rfl, fun _ => rfl, fun _ => rfl, fun _ _ _ => rfl, fun _ _ _ _ => rfl⟩

/-- Definitions one after the other overlay what both of them overlay. -/
theorem Overlaid.trans {before between after : Forest} {xs ys : List Text}
    (h : Overlaid before between n xs) (k : Overlaid between after n ys) :
    Overlaid before after n (xs ++ ys) where
  length := k.length.trans h.length
  parents i := (k.parents i).trans (h.parents i)
  vars i := (k.vars i).trans (h.vars i)
  sinks i := (k.sinks i).trans (h.sinks i)
  binders i hi x := (k.binders i hi x).trans (h.binders i hi x)
  others x hx i hi := by
    rw [List.mem_append, not_or] at hx
    rw [k.others x hx.2 i (by rwa [h.length]), h.others x hx.1 i hi]

/-- One definition: it is written to one frame, which binds the name already or is the frame where
the definition is made. -/
theorem overlaid_defineFunc (ho : Ordered forest) (hn : n < forest.length) (x : Text) (g : Function) :
    Overlaid forest (forest.defineFunc n x g) n [x] := by
  -- one frame is written to: the nearest that binds the name, or the frame of the definition
  obtain ⟨w, hw, hset⟩ := defineFunc_eq ho hn x g
  have hlt : w < forest.length := by
    rcases hw with hw | ⟨rfl, -⟩
    · exact hw.lt ho hn
    · exact hn
  have hframe : (forest.defineFunc n x g).frame = Function.update forest.frame w
      { forest.frame w with funcs := (forest.frame w).funcs.set x g } := by
    rw [hset, frame_setFrame hlt]
  constructor
  · exact length_defineFunc forest n x g
  · exact fun i => parentOf_setFrames i _ _ _
  · intro i
    rw [hframe]
    by_cases hi : i = w
    · rw [hi, Function.update_self]
    · rw [Function.update_of_ne hi]
  · intro i
    rw [hframe]
    by_cases hi : i = w
    · rw [hi, Function.update_self]
    · rw [Function.update_of_ne hi]
  · intro i hin y
    rw [hframe]
    by_cases hi : i = w
    · subst hi
      rw [Function.update_self]
      rcases hw with hw | ⟨hw, -⟩
      · exact Bindings.binds_set_of_binds hw.2 g y
      · exact absurd hw hin
    · rw [Function.update_of_ne hi]
  · intro y hy i hi
    rw [hset]
    exact (written_setFunc ho hlt x g).others i hi y fun h => hy (h ▸ List.mem_singleton_self y)

/-- A function that is defined in a frame is found there. -/
theorem lookupFunc?_defineFunc (ho : Ordered forest) (hn : n < forest.length) (x : Text)
    (g : Function) : (forest.defineFunc n x g).lookupFunc? n x = some g := by
  obtain ⟨w, -, -, hnearest, hwritten, -⟩ := written_defineFunc ho hn x g
  exact hwritten.seen n hn hnearest

/-- Definitions one after the other overlay their names and nothing else. -/
theorem overlaid_defineAll (gs : List Function) (ho : Ordered forest) (hn : n < forest.length) :
    Overlaid forest (forest.defineAll n gs) n (gs.map Function.name) := by
  induction gs generalizing forest with
  | nil => exact .refl forest n
  | cons g gs ih =>
    have hrest := ih (ho.defineFunc n g.name g) (by rwa [length_defineFunc])
    exact (overlaid_defineFunc ho hn g.name g).trans hrest

/-- Functions with different names that are defined in turn are all there in the end. -/
theorem lookupFunc?_defineAll {gs : List Function} (hnodup : (gs.map Function.name).Nodup)
    (ho : Ordered forest) (hn : n < forest.length) :
    ∀ g ∈ gs, (forest.defineAll n gs).lookupFunc? n g.name = some g := by
  induction gs generalizing forest with
  | nil => simp
  | cons h gs ih =>
    rw [List.map_cons, List.nodup_cons] at hnodup
    have ho' : Ordered (forest.defineFunc n h.name h) := ho.defineFunc n h.name h
    have hn' : n < (forest.defineFunc n h.name h).length := by rwa [length_defineFunc]
    intro g hg
    rcases List.mem_cons.1 hg with rfl | hg
    · have hothers := (overlaid_defineAll gs ho' hn').others g.name hnodup.1 n hn'
      exact hothers.trans (lookupFunc?_defineFunc ho hn g.name g)
    · exact ih hnodup.2 ho' hn' g hg

/-- Functions that are there already are defined without effect. -/
theorem defineAll_eq_self {gs : List Function} (ho : Ordered forest) (hn : n < forest.length)
    (h : ∀ g ∈ gs, forest.lookupFunc? n g.name = some g) : forest.defineAll n gs = forest := by
  induction gs with
  | nil => rfl
  | cons g gs ih =>
    obtain ⟨hg, hgs⟩ := List.forall_mem_cons.1 h
    have hone : forest.defineFunc n g.name g = forest := by
      rw [defineFunc, Chain.defineFunc_eq_self hg, setChain_chain ho hn]
    rw [defineAll, List.foldl_cons, hone]
    exact ih hgs

end Forest

/-! ## Evaluation of definitions -/

namespace Eval

/-- A definition yields zero and defines its function. -/
theorem tree_define {o : Options} (ho : o.limit = none) (fuel : Nat) {t : Tree} {g : Function}
    (ht : t.function? = some g) (m : Machine) :
    tree o (fuel + 1) t m = .ok 0 { m with chain := m.chain.defineFunc g.name g } := by
  cases t with
  | define f ps b =>
    cases ht
    have hstep : step o m = .ok () m := by rw [step, ho]
    exact bind_ok hstep
  | _ => cases ht

/-- Trees that are definitions define their functions in the current frame, and do nothing else. -/
theorem all_definitions {o : Options} (ho : o.limit = none) (fuel : Nat) {ts : List Tree}
    (hts : ∀ t ∈ ts, t.function?.isSome) (m : Machine) :
    all o (fuel + 1) (ts.map some) m =
      .ok 0 { m with chain := m.chain.defineAll (ts.filterMap Tree.function?) } := by
  have hrun : ∀ (ts : List Tree), (∀ t ∈ ts, t.function?.isSome) → ∀ m : Machine,
      inOrder (present (tree o (fuel + 1))) (ts.map some) 0 m =
        .ok 0 { m with chain := m.chain.defineAll (ts.filterMap Tree.function?) } := by
    intro ts
    induction ts with
    | nil => exact fun _ _ => rfl
    | cons t ts ih =>
      intro hts m
      obtain ⟨ht, hts⟩ := List.forall_mem_cons.1 hts
      obtain ⟨g, hg⟩ := Option.isSome_iff_exists.1 ht
      have hfirst : present (tree o (fuel + 1)) (some t) m = _ := tree_define ho fuel hg m
      rw [List.filterMap_cons_some hg]
      exact (bind_ok hfirst).trans (ih hts _)
  exact hrun ts hts m

end Eval

namespace Library

/-- The functions of the library, in the order of their definitions. -/
def functions : List Function := trees.filterMap Tree.function?

/-- Load files one after the other, each with an evaluation of its own. -/
def loadFiles : List (Text × List Tree) → Machine → EStateM.Result Halt Machine Int64
  | [], m => .ok 0 m
  | f :: fs, m =>
    match evalAll {} (f.2.map some) m with
    | .ok _ m => loadFiles fs m
    | .error h m => .error h m

/-- The library consists of definitions. -/
theorem isSome_function? : ∀ t ∈ trees, t.function?.isSome := by decide

/-- Definitions are evaluated by defining their functions in order. -/
theorem evalAll_definitions {ts : List Tree} (hts : ∀ t ∈ ts, t.function?.isSome) (m : Machine) :
    evalAll {} (ts.map some) m =
      .ok 0 { m.restarted with chain := m.chain.defineAll (ts.filterMap Tree.function?) } :=
  Eval.all_definitions rfl _ hts m.restarted

theorem map_name_functions : functions.map Function.name =
    ["max", "min", "abs", "countdown", "fib", "fact", "pow", "sum"].map utf8 := rfl

theorem nodup_map_name_functions : (functions.map Function.name).Nodup := by
  rw [map_name_functions]
  decide

/-- Loading the library defines its functions in order. -/
theorem load_eq (m : Machine) :
    load m = .ok 0 { m.restarted with chain := m.chain.defineAll functions } :=
  evalAll_definitions isSome_function? m

/-- Loading files one after the other defines all their functions in order. -/
theorem loadFiles_eq {fs : List (Text × List Tree)}
    (hfs : ∀ t ∈ fs.flatMap (·.2), t.function?.isSome) (m : Machine) :
    loadFiles fs m.restarted = .ok 0
      { m.restarted with
        chain := m.chain.defineAll ((fs.flatMap (·.2)).filterMap Tree.function?) } := by
  induction fs generalizing m with
  | nil => rfl
  | cons f fs ih =>
    rw [List.flatMap_cons, List.forall_mem_append] at hfs
    have hrest := ih hfs.2 { m with chain := m.chain.defineAll (f.2.filterMap Tree.function?) }
    rw [loadFiles, evalAll_definitions hfs.1, List.flatMap_cons, List.filterMap_append,
      Chain.defineAll_append]
    exact hrest

/-- File by file, the library is loaded as in one go. -/
theorem loadFiles_files (m : Machine) : loadFiles files m.restarted = load m := by
  rw [load_eq]
  exact loadFiles_eq isSome_function? m

end Library

namespace Store

variable {s : Store} {n : Nat}

/-- Loading the library into a frame changes the forest only, by its definitions. -/
theorem loadLibrary_eq (hs : s.forest.Ordered) (hn : n < s.forest.length) :
    s.loadLibrary n = { s with forest := s.forest.defineAll n Library.functions } := by
  rw [loadLibrary, Library.load_eq, ← Forest.setChain_defineAll _ hs hn]
  rfl

theorem forest_loadLibrary (hs : s.forest.Ordered) (hn : n < s.forest.length) :
    (s.loadLibrary n).forest = s.forest.defineAll n Library.functions := by
  rw [loadLibrary_eq hs hn]

/-- Loading the library overlays the names of its functions and nothing else. -/
theorem overlaid_loadLibrary (hs : s.forest.Ordered) (hn : n < s.forest.length) :
    s.forest.Overlaid (s.loadLibrary n).forest n (Library.functions.map Function.name) := by
  rw [forest_loadLibrary hs hn]
  exact Forest.overlaid_defineAll Library.functions hs hn

/-- Every function of the library is found once it is loaded. -/
theorem lookupFunc?_loadLibrary (hs : s.forest.Ordered) (hn : n < s.forest.length) :
    ∀ g ∈ Library.functions, (s.loadLibrary n).forest.lookupFunc? n g.name = some g := by
  rw [forest_loadLibrary hs hn]
  exact Forest.lookupFunc?_defineAll Library.nodup_map_name_functions hs hn

/-- All functions are in place after the first time, so they are defined once more without
effect. -/
theorem loadLibrary_loadLibrary (hs : s.forest.Ordered) (hn : n < s.forest.length) :
    (s.loadLibrary n).loadLibrary n = s.loadLibrary n := by
  have hover := overlaid_loadLibrary hs hn
  have hs' : (s.loadLibrary n).forest.Ordered := by
    intro i p hp
    rw [hover.parents] at hp
    exact hs hp
  have hn' : n < (s.loadLibrary n).forest.length := by rwa [hover.length]
  rw [loadLibrary_eq hs' hn', Forest.defineAll_eq_self hs' hn' (lookupFunc?_loadLibrary hs hn)]

/-- The library is laid over every scope. Whatever variables and functions the frames of a forest bind,
loading the library in one of them succeeds, in one go or file by file, and prints nothing. Then

- every frame has its variables, its sink and its parent as before;
- the names of the library mean its functions, as seen from the frame;
- every other name of a function means what it meant before, as seen from any frame;
- no frame but this one has a new name of a function, the frames above it included;
- loading the library once more changes nothing at all. -/
theorem loadLibrary_overlay (s : Store) (hs : s.forest.Built) {n : Nat} (hn : n < s.forest.length) :
    let after := s.loadLibrary n
    (∃ m, Library.load (s.machine n none) = .ok 0 m ∧
        Library.loadFiles Library.files (s.machine n none) = .ok 0 m ∧ after = s.keep n m) ∧
      after.sinks = s.sinks ∧
      (after.forest.length = s.forest.length ∧ ∀ i,
        after.forest.parentOf i = s.forest.parentOf i ∧
          (after.forest.frame i).vars = (s.forest.frame i).vars ∧
          (after.forest.frame i).sink = (s.forest.frame i).sink) ∧
      Library.functions.map Function.name =
        ["max", "min", "abs", "countdown", "fib", "fact", "pow", "sum"].map utf8 ∧
      (∀ g ∈ Library.functions, after.forest.lookupFunc? n g.name = some g) ∧
      (∀ x, x ∉ Library.functions.map Function.name → ∀ i < s.forest.length,
        after.forest.lookupFunc? i x = s.forest.lookupFunc? i x) ∧
      (∀ i, i ≠ n → ∀ x,
        (after.forest.frame i).funcs.binds x = (s.forest.frame i).funcs.binds x) ∧
      after.loadLibrary n = after := by
  have ho : s.forest.Ordered := hs.ordered
  have hover := overlaid_loadLibrary ho hn
  have hload := Library.load_eq (s.machine n none)
  have hfiles : Library.loadFiles Library.files (s.machine n none) = Library.load (s.machine n none) :=
    Library.loadFiles_files (s.machine n none)
  have hkeep : ∀ m, Library.load (s.machine n none) = .ok 0 m → s.loadLibrary n = s.keep n m := by
    intro m hm
    rw [loadLibrary, hm]
  have hsinks : (s.loadLibrary n).sinks = s.sinks := by rw [loadLibrary_eq ho hn]
  refine ⟨⟨_, hload, hfiles.trans hload, hkeep _ hload⟩, hsinks, ⟨hover.length, fun i => ?_⟩,
    Library.map_name_functions, lookupFunc?_loadLibrary ho hn, hover.others, hover.binders,
    loadLibrary_loadLibrary ho hn⟩
  exact ⟨hover.parents i, hover.vars i, hover.sinks i⟩

/-- A root with a variable and with functions `fib` and `f`, a frame below it with another function
`fib`, an empty frame below that one, and an empty frame below the root. -/
def layered : Store where
  forest :=
    let zero (f : Text) : Text × Function := (f, ⟨f, [], some (.literal 0)⟩)
    let root := (Forest.grow [] none).setFrame 0
      { vars := [(utf8 "max", 1)], funcs := [zero (utf8 "fib"), zero (utf8 "f")] }
    (((root.grow (some 0)).setFrame 1 { funcs := [zero (utf8 "fib")] }).grow (some 1)).grow (some 0)

/-- Loaded at the bottom, `fib` replaces the function of the frame above, while the root has its own
one as before; the other functions go to the frame at the bottom, where the root and the frame
beside do not see them. -/
theorem loadLibrary_overlay_layered :
    let after := layered.loadLibrary 2
    layered.forest.Built ∧ 2 < layered.forest.length ∧
      after.forest.lookupFunc? 2 (utf8 "fib") = Library.fib.function? ∧
      after.forest.lookupFunc? 2 (utf8 "max") = Library.max.function? ∧
      after.forest.lookupFunc? 2 (utf8 "f") = layered.forest.lookupFunc? 2 (utf8 "f") ∧
      (after.forest.frame 0).vars = [(utf8 "max", 1)] ∧
      ¬ (after.forest.frame 1).funcs.binds (utf8 "max") ∧ after.loadLibrary 2 = after := by
  intro after
  have hbuilt : layered.forest.Built :=
    .child (.child (.write 1 _ (.child (.write 0 _ (.root .empty)) (by decide))) (by decide))
      (by decide)
  obtain ⟨-, -, ⟨-, hframes⟩, -, hfound, hothers, hbinders, hagain⟩ :=
    loadLibrary_overlay layered hbuilt (n := 2) (by decide)
  refine ⟨hbuilt, by decide, ?_, ?_, hothers _ (by decide) 2 (by decide), (hframes 0).2.1, ?_, hagain⟩
  · exact hfound ⟨utf8 "fib", _, _⟩ (by simp [Library.functions, Library.trees, Library.files,
      Library.fib, Library.define, Tree.function?])
  · exact hfound ⟨utf8 "max", _, _⟩ (by simp [Library.functions, Library.trees, Library.files,
      Library.max, Library.define, Tree.function?])
  · rw [hbinders 1 (by decide)]
    decide

end Store

end TreeLang
