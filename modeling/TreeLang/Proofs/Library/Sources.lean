import TreeLang.Library.Source
import TreeLang.Proofs.Library.Loading

/-!
# The library is what its texts say

The trees of the library are those that are read from its texts (`Library.parse_texts`). Loading the
texts parses and evaluates one file after the other, while `Library.load` evaluates all trees in one
go. The two come to the same (`Library.loadTexts_texts`), so that the library may be taken for its
trees everywhere.
-/

set_option autoImplicit false

namespace TreeLang

/-! ## Equality of trees -/

namespace Tree

mutual

/-- Whether two trees are the same. -/
def same : Tree → Tree → Bool
  | .none, .none => true
  | .literal v, .literal w => v == w
  | .binary op a b, .binary op' a' b' => op == op' && same a a' && same b b'
  | .seq ts, .seq us => sameAll ts us
  | .cond c a b, .cond c' a' b' => same c c' && same a a' && same b b'
  | .loop c b, .loop c' b' => same c c' && same b b'
  | .declare x e, .declare y f => x == y && same e f
  | .assign x e, .assign y f => x == y && same e f
  | .var x, .var y => x == y
  | .print e, .print f => same e f
  | .define f ps b, .define g qs c => f == g && ps == qs && same b c
  | .call f ts, .call g us => f == g && sameAll ts us
  | _, _ => false

/-- Whether lists of trees are the same. -/
def sameAll : List Tree → List Tree → Bool
  | [], [] => true
  | t :: ts, u :: us => same t u && sameAll ts us
  | _, _ => false

end

mutual

/-- The comparison of trees tells whether they are equal. -/
theorem same_iff : (t u : Tree) → (same t u = true ↔ t = u)
  | .none, u => by cases u <;> simp [same]
  | .literal _, u => by cases u <;> simp [same]
  | .binary _ a b, u => by cases u <;> simp [same, same_iff a, same_iff b, and_assoc]
  | .seq ts, u => by cases u <;> simp [same, sameAll_iff ts]
  | .cond c a b, u => by cases u <;> simp [same, same_iff c, same_iff a, same_iff b, and_assoc]
  | .loop c b, u => by cases u <;> simp [same, same_iff c, same_iff b]
  | .declare _ e, u => by cases u <;> simp [same, same_iff e]
  | .assign _ e, u => by cases u <;> simp [same, same_iff e]
  | .var _, u => by cases u <;> simp [same]
  | .print e, u => by cases u <;> simp [same, same_iff e]
  | .define _ _ b, u => by cases u <;> simp [same, same_iff b, and_assoc]
  | .call _ ts, u => by cases u <;> simp [same, sameAll_iff ts]

theorem sameAll_iff : (ts us : List Tree) → (sameAll ts us = true ↔ ts = us)
  | [], us => by cases us <;> simp [sameAll]
  | t :: ts, us => by cases us <;> simp [sameAll, same_iff t, sameAll_iff ts]

end

end Tree

namespace Library

/-! ## The texts -/

/-- A text is read as the given trees. -/
def reads (text : Text) (ts : List Tree) : Bool :=
  match Tree.parse text with
  | .ok us => Tree.sameAll us ts
  | .error _ => false

/-- A text that is found to read as some trees is parsed to them. -/
theorem parse_eq_of_reads {text : Text} {ts : List Tree} (h : reads text ts = true) :
    Tree.parse text = .ok ts := by
  unfold reads at h
  split at h
  · rename_i us hparse
    rw [hparse, (Tree.sameAll_iff us ts).1 h]
  · cases h

set_option maxRecDepth 100000 in
/-- The text of comparisons defines the three functions. -/
theorem parse_cmpText : Tree.parse cmpText = .ok [max, min, abs] :=
  parse_eq_of_reads (by decide +kernel)

set_option maxRecDepth 100000 in
/-- The text of output defines one function. -/
theorem parse_ioText : Tree.parse ioText = .ok [countdown] :=
  parse_eq_of_reads (by decide +kernel)

set_option maxRecDepth 100000 in
/-- The text of arithmetic defines the four functions. -/
theorem parse_mathText : Tree.parse mathText = .ok [fib, fact, pow, sum] :=
  parse_eq_of_reads (by decide +kernel)

/-- The trees of the library are those of its texts, file by file. -/
theorem parse_texts :
    texts.map (fun f => (f.1, Tree.parse f.2)) = files.map fun f => (f.1, .ok f.2) := by
  simp only [texts, files, List.map_cons, List.map_nil, parse_cmpText, parse_ioText, parse_mathText]

/-! ## Loading them -/

/-- A file that can be read is loaded by its trees. -/
theorem loadText_eq_ok {f : Text × Text} {ts : List Tree} {m m' : Machine} {v : Int64}
    (hparse : Tree.parse f.2 = .ok ts) (heval : evalAll {} (ts.map some) m = .ok v m') :
    loadText f m = .ok () m' := by
  unfold loadText evalText
  generalize Tree.parse f.2 = r at hparse
  subst hparse
  dsimp only
  generalize evalAll {} (ts.map some) m = r at heval
  subst heval
  rfl

/-- Files that can be read are loaded by their trees, one after the other. -/
theorem loadTexts_of_loadFiles {texts : List (Text × Text)} {fs : List (Text × List Tree)}
    {m m' : Machine} {v : Int64}
    (h : texts.map (fun f => (f.1, Tree.parse f.2)) = fs.map fun f => (f.1, .ok f.2))
    (hload : loadFiles fs m = .ok v m') : loadTexts texts m = .ok () m' := by
  induction texts generalizing fs m with
  | nil =>
    obtain rfl := List.map_eq_nil_iff.1 h.symm
    cases hload
    rfl
  | cons f texts ih =>
    obtain ⟨g, gs, rfl, hg, hgs⟩ := List.map_eq_cons_iff.1 h.symm
    have hparse : Tree.parse f.2 = .ok g.2 := (congrArg Prod.snd hg).symm
    rw [loadFiles] at hload
    cases heval : evalAll {} (g.2.map some) m with
    | error e m₁ =>
      rw [heval] at hload
      cases hload
    | ok w m₁ =>
      rw [heval] at hload
      show EStateM.bind (loadText f) (fun _ => loadTexts texts) m = _
      rw [EStateM.bind, loadText_eq_ok hparse heval]
      exact ih hgs.symm hload

/-- Loading the texts comes to what evaluating all trees of the library in one go comes to. -/
theorem loadTexts_texts (m : Machine) :
    ∃ m', load m = .ok 0 m' ∧ loadTexts texts m.restarted = .ok () m' := by
  have hfiles : loadFiles files m.restarted = .ok 0 _ := (loadFiles_files m).trans (load_eq m)
  exact ⟨_, load_eq m, loadTexts_of_loadFiles parse_texts hfiles⟩

end Library

end TreeLang
