import TreeLang.Proofs.Tree.Codec

/-!
# The string form identifies the tree

A string form is made of words and of groups in parentheses or brackets, nested to any depth
(`Phrase`). If no word is empty and none holds a delimiter, the text of a phrase shows which phrase
it is and where it ends, whatever follows it (`Phrase.Proper.legible`). A tree is read back from its
phrase (`Tree.tree?_phrase`). So two trees with the same string form are equal
(`Tree.eq_of_form_eq`).
-/

set_option autoImplicit false

namespace TreeLang

/-! ## Words -/

namespace Text

/-- The bytes between words: the space, the parentheses and the square brackets. -/
def delimiters : Text := utf8 " ()[]"

theorem delimiters_eq : delimiters = [32, 40, 41, 91, 93] := rfl

/-- A word is not empty and holds no delimiter. -/
def IsWord (w : Text) : Prop := w ≠ [] ∧ ∀ b ∈ w, b ∉ delimiters

instance (w : Text) : Decidable (IsWord w) :=
  decidable_of_iff (w ≠ [] ∧ w.all fun b => !delimiters.contains b) (by simp [IsWord])

/-- No word goes on in a text: it is empty or starts with a delimiter. -/
def Delimited (r : Text) : Prop := ∀ b ∈ r.head?, b ∈ delimiters

theorem delimited_cons {b : UInt8} (h : b ∈ delimiters) (r : Text) : Delimited (b :: r) := by
  rintro c ⟨⟩
  exact h

/-- A word is read up to the delimiter behind it. -/
theorem takeWhile_append_delimited {w r : Text} (hw : ∀ b ∈ w, b ∉ delimiters) (hr : Delimited r) :
    (w ++ r).takeWhile (· ∉ delimiters) = w := by
  have hrest : r.takeWhile (· ∉ delimiters) = [] := by
    cases r with
    | nil => rfl
    | cons b r => exact List.takeWhile_cons_of_neg (by simpa using hr b rfl)
  rw [List.takeWhile_append_of_pos (by simpa using hw), hrest, List.append_nil]

/-- A word ends where no word goes on. -/
theorem IsWord.append_inj {w v r s : Text} (hw : IsWord w) (hv : IsWord v) (hr : Delimited r)
    (hs : Delimited s) (h : w ++ r = v ++ s) : w = v ∧ r = s := by
  have heq : w = v := by
    rw [← takeWhile_append_delimited hw.2 hr, h, takeWhile_append_delimited hv.2 hs]
  subst heq
  exact ⟨rfl, List.append_cancel_left h⟩

/-- A number is written as a word. -/
theorem isWord_ofInt64 (v : Int64) : IsWord (ofInt64 v) := by
  have hdelimiters : ∀ b ∈ delimiters, ¬ Yaml.Scalar.isDigit b := by
    simp [delimiters_eq, Yaml.Scalar.isDigit]
  have hdigits : ∀ n, ∀ b ∈ ofNat n, b ∉ delimiters := by
    intro n b hb hmem
    exact hdelimiters b hmem (isDigit_of_mem_ofNat n b hb)
  unfold ofInt64
  constructor
  · intro hnil
    have hstart := Yaml.Scalar.startsDecimal_ofInt v.toInt
    rw [hnil] at hstart
    cases hstart
  · cases v.toInt with
    | ofNat n => exact hdigits n
    | negSucc n => exact List.forall_mem_cons.2 ⟨by decide, hdigits (n + 1)⟩

end Text

open Text (delimiters IsWord Delimited)

/-! ## Phrases -/

/-- What a string form is made of. -/
inductive Phrase where
  /-- A word. -/
  | word (w : Text)
  /-- Phrases in parentheses if `round` holds, and in square brackets otherwise. -/
  | group (round : Bool) (items : List Phrase)

namespace Phrase

mutual

/-- How a phrase is written. -/
def text : Phrase → Text
  | .word w => w
  | .group true items => Tree.parenthesized (texts items)
  | .group false items => Tree.bracketed (texts items)

/-- How phrases are written, one by one. -/
def texts : List Phrase → List Text
  | [] => []
  | p :: ps => p.text :: texts ps

end

theorem texts_map_word (ws : List Text) : texts (ws.map .word) = ws := by
  induction ws with
  | nil => rfl
  | cons w ws ih => rw [List.map_cons, texts, text, ih]

/-- Every word in the phrase is one. -/
inductive Proper : Phrase → Prop
  | word {w : Text} : IsWord w → Proper (.word w)
  | group {round : Bool} {items : List Phrase} : (∀ p ∈ items, Proper p) → Proper (.group round items)

/-- The byte in front of a group. -/
def opening (round : Bool) : UInt8 := if round then 40 else 91

/-- The byte behind a group. -/
def closing (round : Bool) : UInt8 := if round then 41 else 93

/-- Phrases with a space in front of each. -/
def spaced (ps : List Phrase) : Text := ps.flatMap fun p => 32 :: p.text

theorem opening_mem (round : Bool) : opening round ∈ delimiters := by
  cases round <;> decide

theorem closing_mem (round : Bool) : closing round ∈ delimiters := by
  cases round <;> decide

/-- An opening bracket tells its kind. -/
theorem opening_injective {a b : Bool} (h : opening a = opening b) : a = b := by
  revert a b
  decide

theorem opening_ne_closing (a b : Bool) : opening a ≠ closing b := by
  revert a b
  decide

theorem closing_ne_space (round : Bool) : closing round ≠ 32 := by
  cases round <;> decide

/-- Items have a space in front of each. -/
theorem spaced_cons (p : Phrase) (ps : List Phrase) (r : Text) :
    spaced (p :: ps) ++ r = 32 :: (p.text ++ (spaced ps ++ r)) := by
  simp [spaced]

/-- A list of items is its first item and the others with spaces in front. -/
theorem join_texts_cons (p : Phrase) (ps : List Phrase) :
    Text.join (utf8 " ") (texts (p :: ps)) = p.text ++ spaced ps := by
  induction ps generalizing p with
  | nil => simp [texts, Text.join, spaced]
  | cons q qs ih =>
    show p.text ++ [32] ++ Text.join (utf8 " ") (texts (q :: qs)) = p.text ++ spaced (q :: qs)
    rw [ih, List.append_assoc]
    rfl

/-- A group is written between its brackets. -/
theorem text_group (round : Bool) (items : List Phrase) (r : Text) :
    (group round items).text ++ r =
      opening round :: (Text.join (utf8 " ") (texts items) ++ closing round :: r) := by
  cases round <;> simp [text, Tree.parenthesized, Tree.bracketed] <;> rfl

/-- A phrase does not start with a byte that ends a group. -/
theorem Proper.text_eq_cons {p : Phrase} (hp : p.Proper) :
    ∃ b r, p.text = b :: r ∧ ∀ round, b ≠ closing round := by
  cases hp with
  | @word w hw =>
    obtain ⟨b, r, rfl⟩ := List.exists_cons_of_ne_nil hw.1
    refine ⟨b, r, rfl, ?_⟩
    rintro round rfl
    exact hw.2 _ List.mem_cons_self (closing_mem round)
  | @group round items _ =>
    have htext := text_group round items []
    rw [List.append_nil] at htext
    exact ⟨_, _, htext, opening_ne_closing round⟩

/-! ## Phrases are read off their texts -/

/-- The text of a phrase shows which phrase it is and where it ends. -/
def Legible (p : Phrase) : Prop :=
  ∀ (q : Phrase) (r s : Text), q.Proper → Delimited r → Delimited s → p.text ++ r = q.text ++ s →
    p = q ∧ r = s

/-- Behind an item there is a space or a closing bracket. -/
theorem delimited_spaced (ps : List Phrase) (round : Bool) (r : Text) :
    Delimited (spaced ps ++ closing round :: r) := by
  cases ps with
  | nil => exact Text.delimited_cons (closing_mem round) r
  | cons p ps =>
    rw [spaced_cons]
    exact Text.delimited_cons (by decide) _

/-- The phrases that are left in a group, up to its end. -/
theorem spaced_inj {round : Bool} {r s : Text} {ps : List Phrase} (hps : ∀ p ∈ ps, p.Legible) :
    ∀ {qs : List Phrase}, (∀ q ∈ qs, q.Proper) →
      spaced ps ++ closing round :: r = spaced qs ++ closing round :: s → ps = qs ∧ r = s := by
  induction ps with
  | nil =>
    intro qs _ h
    cases qs with
    | nil => exact ⟨rfl, (List.cons.inj h).2⟩
    | cons q qs =>
      rw [spaced_cons] at h
      exact absurd (List.cons.inj h).1 (closing_ne_space round)
  | cons p ps ih =>
    intro qs hqs h
    rw [List.forall_mem_cons] at hps
    rw [spaced_cons] at h
    cases qs with
    | nil => exact absurd (List.cons.inj h).1.symm (closing_ne_space round)
    | cons q qs =>
      rw [List.forall_mem_cons] at hqs
      rw [spaced_cons] at h
      -- a phrase ends where a blank or a bracket follows, so the first ones are the same
      obtain ⟨rfl, hrest⟩ := hps.1 q _ _ hqs.1 (delimited_spaced ps round r)
        (delimited_spaced qs round s) (List.cons.inj h).2
      obtain ⟨rfl, rfl⟩ := ih hps.2 hqs.2 hrest
      exact ⟨rfl, rfl⟩

/-- All phrases in a group, up to its end. -/
theorem join_texts_inj {round : Bool} {r s : Text} {ps qs : List Phrase} (hps : ∀ p ∈ ps, p.Legible)
    (hproper : ∀ p ∈ ps, p.Proper) (hqs : ∀ q ∈ qs, q.Proper)
    (h : Text.join (utf8 " ") (texts ps) ++ closing round :: r =
      Text.join (utf8 " ") (texts qs) ++ closing round :: s) : ps = qs ∧ r = s := by
  -- only the first phrase has no space in front, so an empty group is told by its end
  have hend : ∀ {p : Phrase} {ps : List Phrase} {r s : Text}, p.Proper →
      Text.join (utf8 " ") (texts (p :: ps)) ++ r ≠ closing round :: s := by
    intro p ps r s hp heq
    obtain ⟨b, t, htext, hb⟩ := hp.text_eq_cons
    rw [join_texts_cons, htext] at heq
    exact hb round (List.cons.inj heq).1
  cases ps with
  | nil =>
    cases qs with
    | nil => exact ⟨rfl, (List.cons.inj h).2⟩
    | cons q qs => exact absurd h.symm (hend (hqs q List.mem_cons_self))
  | cons p ps =>
    cases qs with
    | nil => exact absurd h (hend (hproper p List.mem_cons_self))
    | cons q qs =>
      rw [join_texts_cons, join_texts_cons, List.append_assoc, List.append_assoc] at h
      apply spaced_inj hps hqs
      rw [spaced_cons, spaced_cons, h]

/-- The text of a phrase whose words are words shows which phrase it is. -/
theorem Proper.legible {p : Phrase} (hp : p.Proper) : p.Legible := by
  -- the induction is over the groups; what follows a phrase differs from group to group
  induction hp with
  | @word w hw =>
    intro q r s hq hr hs h
    cases hq with
    | word hv =>
      obtain ⟨rfl, rfl⟩ := hw.append_inj hv hr hs h
      exact ⟨rfl, rfl⟩
    | @group round items _ =>
      obtain ⟨b, t, rfl⟩ := List.exists_cons_of_ne_nil hw.1
      rw [text_group] at h
      have hb : b = opening round := (List.cons.inj h).1
      exact absurd (opening_mem round) (hb ▸ hw.2 b List.mem_cons_self)
  | @group round items hproper ih =>
    intro q r s hq hr hs h
    rw [text_group] at h
    cases hq with
    | @word v hv =>
      obtain ⟨b, t, rfl⟩ := List.exists_cons_of_ne_nil hv.1
      have hb : opening round = b := (List.cons.inj h).1
      exact absurd (opening_mem round) (hb ▸ hv.2 b List.mem_cons_self)
    | @group other items' hproper' =>
      rw [text_group] at h
      obtain ⟨hopening, hinner⟩ := List.cons.inj h
      obtain rfl := opening_injective hopening
      obtain ⟨rfl, rfl⟩ := join_texts_inj ih hproper hproper' hinner
      exact ⟨rfl, rfl⟩

end Phrase

/-! ## Trees as phrases -/

namespace Phrase

/-- The phrase of a form: its name and what follows, in parentheses. -/
def ofForm (f : Form) (items : List Phrase) : Phrase := .group true (.word f.name :: items)

theorem Proper.ofForm (f : Form) {items : List Phrase} (h : ∀ p ∈ items, p.Proper) :
    (Phrase.ofForm f items).Proper := by
  have hnames : ∀ g ∈ Form.all, IsWord g.name := by decide
  exact .group (List.forall_mem_cons.2 ⟨.word (hnames f f.mem_all), h⟩)

/-- The word that a phrase is. -/
def word? : Phrase → Option Text
  | .word w => some w
  | .group _ _ => none

/-- The tree of a form, from the phrases that follow its name and the trees that these stand for, if
they do. -/
def assemble : Form → List (Phrase × Option Tree) → Option Tree
  | .none, [] => some .none
  | .var, [(.word x, _)] => some (.var x)
  | .print, [(_, e)] => do return .print (← e)
  | .declare, [(.word x, _), (_, e)] => do return .declare x (← e)
  | .assign, [(.word x, _), (_, e)] => do return .assign x (← e)
  | .define, [(.word f, _), (.group false ps, _), (_, b)] => do
    return .define f (← ps.mapM word?) (← b)
  | .call, (.word f, _) :: args => do return .call f (← args.mapM Prod.snd)
  | .operator op, [(_, a), (_, b)] => do return .binary op (← a) (← b)
  | .seq, ts => do return .seq (← ts.mapM Prod.snd)
  | .cond, [(_, c), (_, a), (_, b)] => do return .cond (← c) (← a) (← b)
  | .loop, [(_, c), (_, b)] => do return .loop (← c) (← b)
  | _, _ => none

mutual

/-- The tree that a phrase is the string form of. -/
def tree? : Phrase → Option Tree
  | .word w => (Integer.readInt w).toOption.map fun v => .literal (.ofInt v)
  | .group true (.word k :: items) => (Form.ofName? k).bind fun f => assemble f (withTrees items)
  | .group _ _ => none

/-- Phrases with the trees that they are the string forms of. -/
def withTrees : List Phrase → List (Phrase × Option Tree)
  | [] => []
  | p :: ps => (p, p.tree?) :: withTrees ps

end

/-- The phrase of a form is read by assembling its items. -/
theorem tree?_ofForm (f : Form) (items : List Phrase) :
    (ofForm f items).tree? = assemble f (withTrees items) := by
  rw [ofForm, tree?, Form.ofName?_name]
  rfl

/-- The phrase of a number is read as the literal. -/
theorem tree?_word_ofInt64 (v : Int64) : (word (Text.ofInt64 v)).tree? = some (.literal v) := by
  have hread : Integer.readInt (Text.ofInt64 v) = .ok v.toInt :=
    Integer.readInt_ofInt (Int64.le_toInt v) (Int64.toInt_lt v)
  rw [tree?, hread]
  exact congrArg (some ∘ Tree.literal) (Int64.ofInt_toInt v)

theorem mapM_word?_map (ws : List Text) : (ws.map word).mapM word? = some ws := by
  induction ws with
  | nil => rfl
  | cons w ws ih => simp [ih, word?]

end Phrase

namespace Tree

open Phrase (ofForm assemble withTrees tree?_ofForm texts_map_word mapM_word?_map)

mutual

/-- The phrase that is the string form of a tree. -/
def phrase : Tree → Phrase
  | .none => ofForm .none []
  | .literal v => .word (Text.ofInt64 v)
  | .binary op a b => ofForm (.operator op) [a.phrase, b.phrase]
  | .seq ts => ofForm .seq (phrases ts)
  | .cond c a b => ofForm .cond [c.phrase, a.phrase, b.phrase]
  | .loop c b => ofForm .loop [c.phrase, b.phrase]
  | .declare x e => ofForm .declare [.word x, e.phrase]
  | .assign x e => ofForm .assign [.word x, e.phrase]
  | .var x => ofForm .var [.word x]
  | .print e => ofForm .print [e.phrase]
  | .define f ps b => ofForm .define [.word f, .group false (ps.map .word), b.phrase]
  | .call f args => ofForm .call (.word f :: phrases args)

/-- The phrases that are the string forms of trees. -/
def phrases : List Tree → List Phrase
  | [] => []
  | t :: ts => t.phrase :: phrases ts

end

mutual

/-- The phrase of a tree is written as the string form says. -/
theorem text_phrase : (t : Tree) → t.phrase.text = t.form
  | .none | .literal _ | .var _ => rfl
  | .binary _ a b | .loop a b => by
    rw [form, ← text_phrase a, ← text_phrase b]
    rfl
  | .seq ts => by
    rw [form, ← texts_phrases ts]
    rfl
  | .cond c a b => by
    rw [form, ← text_phrase c, ← text_phrase a, ← text_phrase b]
    rfl
  | .declare _ e | .assign _ e | .print e => by
    rw [form, ← text_phrase e]
    rfl
  | .define f ps b => by
    rw [form, ← text_phrase b, ← congrArg bracketed (texts_map_word ps)]
    rfl
  | .call f args => by
    rw [form, ← texts_phrases args]
    rfl

/-- The phrases of trees are written as their string forms. -/
theorem texts_phrases : (ts : List Tree) → Phrase.texts (phrases ts) = formAll ts
  | [] => rfl
  | t :: ts => by rw [formAll, ← text_phrase t, ← texts_phrases ts, phrases, Phrase.texts]

end

mutual

/-- The phrase of a tree is proper if its names are words. -/
theorem proper_phrase : (t : Tree) → (∀ x ∈ t.names, IsWord x) → t.phrase.Proper
  | .none, _ => .ofForm .none (by simp)
  | .literal v, _ => .word (Text.isWord_ofInt64 v)
  | .var x, h => .ofForm .var (by simpa using .word (h x List.mem_cons_self))
  | .binary _ a b, h | .loop a b, h => by
    rw [names, List.forall_mem_append] at h
    exact .ofForm _ (by simp [proper_phrase a h.1, proper_phrase b h.2])
  | .seq ts, h => .ofForm .seq (proper_phrases ts h)
  | .cond c a b, h => by
    rw [names, List.forall_mem_append, List.forall_mem_append] at h
    exact .ofForm .cond (by
      simp [proper_phrase c h.1, proper_phrase a h.2.1, proper_phrase b h.2.2])
  | .declare _ e, h | .assign _ e, h => by
    rw [names, List.forall_mem_cons] at h
    exact .ofForm _ (by simp [Phrase.Proper.word h.1, proper_phrase e h.2])
  | .print e, h => .ofForm .print (by simpa using proper_phrase e h)
  | .define f ps b, h => by
    rw [names, List.forall_mem_cons, List.forall_mem_append] at h
    have hps : (Phrase.group false (ps.map .word)).Proper :=
      .group (List.forall_mem_map.2 fun x hx => .word (h.2.1 x hx))
    exact .ofForm .define (by simp [Phrase.Proper.word h.1, hps, proper_phrase b h.2.2])
  | .call f args, h => by
    rw [names, List.forall_mem_cons] at h
    exact .ofForm .call (List.forall_mem_cons.2 ⟨.word h.1, proper_phrases args h.2⟩)

theorem proper_phrases : (ts : List Tree) → (∀ x ∈ namesAll ts, IsWord x) →
    ∀ p ∈ phrases ts, p.Proper
  | [], _ => by simp [phrases]
  | t :: ts, h => by
    rw [namesAll, List.forall_mem_append] at h
    rw [phrases, List.forall_mem_cons]
    exact ⟨proper_phrase t h.1, proper_phrases ts h.2⟩

end

/-! ## Reading back -/

mutual

/-- A tree is read back from its phrase. -/
theorem tree?_phrase : (t : Tree) → t.phrase.tree? = some t
  | .none | .var _ => by
    rw [phrase, tree?_ofForm]
    rfl
  | .literal v => Phrase.tree?_word_ofInt64 v
  | .binary _ a b | .loop a b => by
    rw [phrase, tree?_ofForm]
    simp [withTrees, assemble, tree?_phrase a, tree?_phrase b]
  | .seq ts => by
    rw [phrase, tree?_ofForm]
    simp [assemble, mapM_withTrees_phrases ts]
  | .cond c a b => by
    rw [phrase, tree?_ofForm]
    simp [withTrees, assemble, tree?_phrase c, tree?_phrase a, tree?_phrase b]
  | .declare _ e | .assign _ e | .print e => by
    rw [phrase, tree?_ofForm]
    simp [withTrees, assemble, tree?_phrase e]
  | .define f ps b => by
    rw [phrase, tree?_ofForm]
    simp [withTrees, assemble, mapM_word?_map ps, tree?_phrase b]
  | .call f args => by
    rw [phrase, tree?_ofForm]
    simp [withTrees, assemble, mapM_withTrees_phrases args]

theorem mapM_withTrees_phrases : (ts : List Tree) → (withTrees (phrases ts)).mapM Prod.snd = some ts
  | [] => rfl
  | t :: ts => by
    rw [phrases, withTrees]
    simp [tree?_phrase t, mapM_withTrees_phrases ts]

end

/-- A tree is told by its phrase. -/
theorem phrase_injective {t u : Tree} (h : t.phrase = u.phrase) : t = u := by
  have hread : some t = some u := by rw [← tree?_phrase t, h, tree?_phrase u]
  exact Option.some.inj hread

/-- Two trees are equal if their string forms are, provided that the names in both are words: they
are not empty and hold no space, parenthesis or square bracket. -/
theorem eq_of_form_eq {t u : Tree} (ht : ∀ x ∈ t.names, IsWord x) (hu : ∀ x ∈ u.names, IsWord x)
    (h : t.form = u.form) : t = u := by
  have hend : Delimited [] := by
    rintro b ⟨⟩
  have htext : t.phrase.text ++ [] = u.phrase.text ++ [] := by
    rw [text_phrase, text_phrase, h]
  have hlegible := (proper_phrase t ht).legible
  exact phrase_injective (hlegible u.phrase [] [] (proper_phrase u hu) hend hend htext).1

/-- A literal beyond the machine integers wraps around: a tree with one in it has the string form of
the tree with the negative literal, and is that tree. -/
theorem eq_of_form_eq_wrapped :
    let f : Int64 → Tree := fun v => .define (utf8 "f") [utf8 "a", utf8 "b"]
      (.seq [.call (utf8 "g") [.literal v, .var (utf8 "a")], .none])
    (∀ x ∈ (f 18446744073709551615).names, IsWord x) ∧ (∀ x ∈ (f (-1)).names, IsWord x) ∧
      (f 18446744073709551615).form = (f (-1)).form ∧
      (f (-1)).form = utf8 "(def f [a b] (seq (call g -1 (var a)) (none)))" ∧
      f 18446744073709551615 = f (-1) := by
  intro f
  have hwrapped : ∀ x ∈ (f 18446744073709551615).names, IsWord x := by decide
  have hnegative : ∀ x ∈ (f (-1)).names, IsWord x := by decide
  have hform : (f 18446744073709551615).form = (f (-1)).form := by decide
  exact ⟨hwrapped, hnegative, hform, by decide, eq_of_form_eq hwrapped hnegative hform⟩

/-- A name with a delimiter in it may look like two names. -/
example : (Tree.seq [.var (utf8 "a) (var b")]).form =
    (Tree.seq [.var (utf8 "a"), .var (utf8 "b")]).form := by
  decide

end Tree

end TreeLang
