import TreeLang.Proofs.Yaml.Bare
import TreeLang.Proofs.Yaml.ReadThrough

/-!
# Sources that denote no tree

The root of a document of a bare source is a plain scalar that is no integer, or is missing. So a
bare source has no document that denotes a tree (`TreeStream.readAll_bare`).
-/

set_option autoImplicit false

namespace TreeLang.Yaml

/-! ## Tokens -/

/-- All tokens up to the end of the stream are words. -/
def TokenStream.Words (o : TokenStream) : Prop :=
  ∀ (n : Nat) (ts : List Token) (t : Token) (s : TokenStream), handed n o = (ts ++ [t], s) →
    (∀ u ∈ ts, u.kind ≠ .streamEnd) → t.kind.IsWord

/-- A bare source that is read to its end has words only. -/
theorem TokenStream.words_of_handed {src : Source} (hbare : src.Bare) {n : Nat} {ts : List Token} {t : Token}
    {s : TokenStream} (h : handed n (ofSource src) = (ts ++ [t], s)) (ht : t.kind = .streamEnd)
    (htrouble : s.cursor.trouble = none) : Words (ofSource src) := by
  intro m us u s' hm hus
  have hprefix := prefix_of_streamEnd hm h hus ht
  have hmem : u ∈ ts ++ [t] := hprefix.subset (List.mem_append_right us List.mem_cons_self)
  exact (isWord_of_handed hbare h htrouble).2.2 u hmem

namespace EventStream

open TokenStream (Words)

variable {o : TokenStream} {gs : List Goal} {k : Int} {s : EventStream} {t : Token}

/-- A token that is shown is a word if all tokens are. -/
theorem Showing.isWord (h : Showing o gs k t s) (hwords : Words o) : t.kind.IsWord := by
  obtain ⟨ts, hreached, hts, -⟩ := h.reached
  obtain ⟨n, hn⟩ := hreached.handed_tail h.looked
  exact hwords n ts t _ hn hts

/-- The event of a plain scalar that is no integer. -/
def IsWordEvent (e : Event) : Prop :=
  ∃ m cs, e = .scalar { start := m } (Utf8.encode cs) true ∧ Scalar.Wordy cs

/-- Words have no anchor or tag in front. -/
theorem Taken.leads_properties_word (h : Taken o gs k s) (hwords : Words o) :
    Leads True properties s fun r s' => Showing o gs k r.2 s' ∧ ∃ m, r.1 = { start := m } := by
  unfold properties
  rw [leads_bind]
  refine h.leads_peek.mono fun t s₁ ht => ?_
  have hword := ht.isWord hwords
  split
  · rename_i hkind
    rw [hkind] at hword
    exact hword.elim
  · rename_i hkind
    rw [hkind] at hword
    exact hword.elim
  · exact ⟨ht, t.start, rfl⟩

/-- Where all tokens are words, a node is a word. -/
theorem Taken.leads_node_word (h : Taken o gs k s) (hwords : Words o) (block indentless : Bool) :
    Leads True (node block indentless) s fun e _ => IsWordEvent e := by
  unfold node
  rw [leads_bind]
  refine h.leads_peek.mono fun t s₁ ht => ?_
  have htword := ht.isWord hwords
  split
  · rename_i name hkind
    rw [hkind] at htword
    exact htword.elim
  · rw [leads_bind]
    refine (ht.toTaken.leads_properties_word hwords).mono fun r s₂ hr => ?_
    obtain ⟨props, u⟩ := r
    obtain ⟨hu, m, hm⟩ := hr
    have hword : u.kind.IsWord := hu.isWord hwords
    dsimp only at hm ⊢
    subst hm
    -- of the tokens that start a node only plain scalars are words
    split
    case h_2 v plain hkind =>
      rw [hkind] at hword
      obtain ⟨rfl, cs, rfl, hcs⟩ := hword
      simp only [leads_bind, leads_attachHeads]
      exact ((hu.heads []).leads_skip_unnoted (by rw [hkind]; rfl)).mono fun _ _ _ => ⟨m, cs, rfl, hcs⟩
    case h_7 => trivial
    all_goals
      rename_i hkind
      rw [hkind] at hword
      exact hword.elim

/-- The root of a document. -/
theorem Taken.leads_root_word (h : Taken o gs k s) (hwords : Words o) {g : Goal}
    (hg : g = .blockNode ∨ g = .documentContent) : Leads True (meet g) s fun e _ => IsWordEvent e := by
  rcases hg with rfl | rfl
  · exact h.leads_node_word hwords true false
  · show Leads True documentContent s _
    unfold documentContent
    rw [leads_bind]
    refine h.leads_peek.mono fun t s₁ ht => ?_
    split
    · exact ⟨t.start, [], rfl, List.forall_mem_nil _⟩
    · exact ht.toTaken.leads_node_word hwords true false

end EventStream

namespace DocumentStream

open TokenStream (Words)
open EventStream (IsWordEvent)

variable {o : TokenStream} {st : DocumentStream}

/-! ## Documents -/

/-- The root of the document is a plain scalar that is no integer. -/
def IsWord (d : Document) : Prop :=
  ∃ p cs, d.root = .scalar p (scalarTag (Utf8.encode cs) true) (Utf8.encode cs) ∧ Scalar.Wordy cs

/-- A document that is composed from words is a word. -/
theorem outcome_document?_word {first : Bool} (hwords : Words o) (h : Past o [.document first] st) :
    Outcome True document? st fun r _ => ∀ d ∈ r, IsWord d := by
  obtain ⟨-, k, -, htaken⟩ := h
  unfold document?
  rw [outcome_bind, outcome_nextEvent]
  refine (htaken.leads_next fun hs => hs.leads_document first).mono fun e events he => ?_
  obtain ⟨⟨rfl, g, hg, hroot⟩ | ⟨rfl, -⟩, -⟩ := he
  · simp only [outcome_bind, outcome_get]
    cases eventBound events.tokens.cursor.bound with
    | zero => trivial
    | succ fuel =>
      rw [readNode_succ, outcome_bind, outcome_nextEvent]
      refine (hroot.leads_next fun hs => hs.leads_root_word hwords hg).mono fun e₁ events₁ he₁ => ?_
      obtain ⟨m, cs, rfl, hcs⟩ := he₁.1
      rw [proceed_scalar, finish, outcome_pure, outcome_nextEvent]
      refine ((answers_true EventStream.next).leads _).mono fun _ _ _ d hd => ?_
      cases hd
      exact ⟨m.place, cs, rfl, hcs⟩
  · intro d hd
    cases hd

end DocumentStream

end TreeLang.Yaml

namespace TreeLang

open Yaml (Source TokenStream)
open Yaml.DocumentStream (Ready IsWord)

/-! ## Trees -/

/-- A plain scalar that is no integer is not tagged as one. -/
theorem scalarTag_ne_int {cs : List Char} (h : Yaml.Scalar.Wordy cs) :
    Yaml.DocumentStream.scalarTag (Utf8.encode cs) true ≠ Yaml.Tag.int := by
  unfold Yaml.DocumentStream.scalarTag
  split
  · decide
  · split
    · decide
    · cases hmeaning : Yaml.Scalar.meaning (Utf8.encode cs) with
      | int n => exact absurd hmeaning (Yaml.Scalar.meaning_ne_int h n)
      | _ => decide

/-- A word denotes no tree. -/
theorem Decode.document_of_isWord {d : Yaml.Document} (h : IsWord d) (x : Expansion) :
    ∀ t x', Decode.document d x ≠ .ok t x' := by
  obtain ⟨p, cs, hroot, hcs⟩ := h
  intro t x' htree
  unfold Decode.document at htree
  rw [hroot] at htree
  unfold Decode.node Decode.literal at htree
  rw [if_neg (scalarTag_ne_int hcs)] at htree
  change EStateM.bind (Decode.visit p) (fun _ => Decode.fail p _) x = _ at htree
  unfold EStateM.bind at htree
  cases hvisit : Decode.visit p x <;> rw [hvisit] at htree <;> cases htree

/-- A bare source that can be read denotes no trees. -/
theorem TreeStream.readAll_bare {src : Source} (hbare : src.Bare) {trees : List Tree}
    (h : Tree.readAll src = .ok trees) : trees = [] := by
  obtain ⟨n, ts, t, s, hn, ht, -, -, htrouble⟩ := exists_handed_of_readAll h
  have hwords := TokenStream.words_of_handed hbare hn ht htrouble
  have hnext := (Yaml.DocumentStream.ready_ofSource src).outcome_next?
    (Yaml.DocumentStream.outcome_document?_word hwords)
  unfold Yaml.DocumentStream.Outcome at hnext
  obtain ⟨less, r, documents, -, hrun, hcases⟩ := readAll_cases h
  rw [show Yaml.DocumentStream.next?.run (Yaml.DocumentStream.ofSource src) = .ok (r, documents) from hrun]
    at hnext
  rcases hcases with ⟨-, htrees⟩ | ⟨d, t, x, rest, rfl, hdoc, -, -⟩
  · exact htrees
  · exact absurd hdoc (Decode.document_of_isWord (hnext d rfl) _ t x)

end TreeLang
