import TreeLang.Proofs.Tree.Stream
import TreeLang.Proofs.Tree.TreeLayout

/-!
# Reading what was written

Trees whose names are UTF-8 and not empty can always be written, and the text holds one document for
each of them. They are read back as they were exactly if each tree keeps three rules
(`Tree.parse_format_iff`): none of its names is the merge key `<<`, no name that is written as a
literal block starts with a line break or a tab, and its block collections are not nested more
deeply than a reader follows. A reader that meets anything else reads other trees, or none.
-/

set_option autoImplicit false

namespace TreeLang

open Yaml (Node Layout Style Clear DocumentStream)
open Yaml.Layout (ofNode ofNodes Composes reread spoiled Regular KeyRule Kept page pages pagesKinds)
open Yaml.TokenStream (maxDepth)
open Utf8 (encode)

/-! ## The characters of a page -/

namespace Yaml.Layout

theorem clear_spaces (n : Nat) : Clear (Style.spaces n) := by
  intro c hc
  rw [List.eq_of_mem_replicate hc]
  decide

theorem clear_cons {c : Char} {cs : List Char} (hc : Style.isSpecial c = false) (h : Clear cs) :
    Clear (c :: cs) :=
  List.forall_mem_cons.2 ⟨hc, h⟩

/-- A scalar is written without special characters. -/
theorem clear_write {inFlow : Bool} {style : Style} {cs : List Char} (h : Holds inFlow style cs)
    (indent : Nat) : Clear (style.write indent cs) := by
  cases style with
  | plain => exact h.2.clear
  | single =>
    have hinside : Clear (Style.doubleQuotes (Style.indented indent false cs)) :=
      Scalar.clear_doubleQuotes (Scalar.clear_indented h.clear)
    exact clear_append.2 ⟨clear_cons (by decide) hinside, clear_cons (by decide) (List.forall_mem_nil _)⟩
  | double =>
    have hinside := Scalar.clear_doubled cs
    exact clear_append.2 ⟨clear_cons (by decide) hinside, clear_cons (by decide) (List.forall_mem_nil _)⟩
  | literal => exact Scalar.clear_literalForm h.2.2

mutual

/-- A layout on one line is written without special characters. -/
theorem clear_line : (d : Layout) → ∀ {level : Nat} (indent : Nat), d.Fits level → Clear (line indent d)
  | .scalar style cs, _, indent, h => by
    rw [Fits] at h
    rw [line]
    exact clear_write h indent
  | .list flow items, _, indent, h => by
    obtain ⟨inner, hitems⟩ := h.items
    rw [line]
    exact clear_cons (by decide) (clear_append.2 ⟨clear_lineItems items (indent + 2) true hitems,
      clear_cons (by decide) (List.forall_mem_nil _)⟩)
  | .entry flow key d, _, indent, h => by
    obtain ⟨hkey, inner, hd⟩ := h.entry
    rw [line]
    refine clear_cons (by decide) (clear_append.2 ⟨(hkey.plain false).clear, ?_⟩)
    refine clear_cons (by decide) (clear_cons (by decide) (clear_append.2 ⟨clear_line d _ hd, ?_⟩))
    exact clear_cons (by decide) (List.forall_mem_nil _)

theorem clear_lineItems : (ds : List Layout) → ∀ {level : Nat} (indent : Nat) (first : Bool),
    FitsAll level ds → Clear (lineItems indent first ds)
  | [], _, _, _, _ => by
    rw [lineItems]
    exact List.forall_mem_nil _
  | d :: ds, _, indent, first, h => by
    obtain ⟨hd, hds⟩ := (by rwa [FitsAll] at h : _ ∧ _)
    rw [lineItems]
    refine clear_append.2 ⟨?_, clear_append.2 ⟨clear_line d indent hd, clear_lineItems ds indent false hds⟩⟩
    cases first with
    | true => exact List.forall_mem_nil _
    | false => exact clear_cons (by decide) (clear_cons (by decide) (List.forall_mem_nil _))

end

theorem clear_closing (cs : List Char) : Clear (Scalar.closing cs) := by
  unfold Scalar.closing
  split
  · exact List.forall_mem_nil _
  · exact clear_cons (by decide) (List.forall_mem_nil _)

theorem clear_gap (indent : Nat) (d : Layout) : Clear (gap indent d) := by
  unfold gap
  split
  · exact clear_cons (by decide) (clear_spaces indent)
  · exact clear_cons (by decide) (List.forall_mem_nil _)

mutual

/-- A layout over several lines is written without special characters. -/
theorem clear_lines : (d : Layout) → ∀ (indent : Nat), d.Fits 0 → Clear (lines indent d)
  | .list false items, indent, h => by
    obtain ⟨-, -, hitems⟩ := (by rwa [Fits] at h : _ ∧ _ ∧ _)
    rw [lines]
    exact clear_linesItems items indent true hitems
  | .entry false key d, indent, h => by
    obtain ⟨-, hkey, hd⟩ := (by rwa [Fits] at h : _ ∧ _ ∧ _)
    rw [lines]
    refine clear_append.2 ⟨(hkey.plain false).clear, clear_cons (by decide) ?_⟩
    exact clear_append.2 ⟨clear_gap _ _, clear_lines d _ hd⟩
  | .scalar style cs, indent, h => by
    rw [lines_leaf rfl]
    exact clear_append.2 ⟨clear_line _ indent h, clear_closing _⟩
  | .list true items, indent, h => by
    rw [lines_leaf rfl]
    exact clear_append.2 ⟨clear_line _ indent h, clear_closing _⟩
  | .entry true key d, indent, h => by
    rw [lines_leaf rfl]
    exact clear_append.2 ⟨clear_line _ indent h, clear_closing _⟩

theorem clear_linesItems : (ds : List Layout) → ∀ (indent : Nat) (first : Bool), FitsAll 0 ds →
    Clear (linesItems indent first ds)
  | [], _, _, _ => by
    rw [linesItems]
    exact List.forall_mem_nil _
  | d :: ds, indent, first, h => by
    obtain ⟨hd, hds⟩ := (by rwa [FitsAll] at h : _ ∧ _)
    rw [linesItems]
    refine clear_append.2 ⟨?_, clear_cons (by decide) (clear_cons (by decide) (clear_append.2 ⟨?_, ?_⟩))⟩
    · cases first with
      | true => exact List.forall_mem_nil _
      | false => exact clear_spaces indent
    · exact clear_lines d _ hd
    · exact clear_linesItems ds indent false hds

end

/-- Everything on a page can be written as it is. -/
theorem clear_pages {ds : List Layout} (h : ∀ d ∈ ds, d.Fits 0) : Clear (pages ds) := by
  induction ds with
  | nil => exact List.forall_mem_nil _
  | cons d ds ih =>
    obtain ⟨hd, hds⟩ := List.forall_mem_cons.1 h
    have htext : pages (d :: ds) = ['-', '-', '-', '\n'] ++ (page d ++ pages ds) := by simp [pages]
    rw [htext]
    refine clear_append.2 ⟨?_, clear_append.2 ⟨clear_lines d _ hd, ih hds⟩⟩
    apply clear_of_all
    decide

/-- A text without special characters is one that may be read. -/
theorem isAllowed_of_clear {cs : List Char} (h : Clear cs) :
    ∀ c ∈ cs, Source.isAllowed c.toNat := by
  intro c hc
  have hspecial := h c hc
  have hbounds := Utf8.toNat_bounds c
  by_cases htab : c = '\t'
  · subst htab
    decide
  · have hwritable : Style.isWritable c = true := by simpa [Style.isSpecial, htab] using hspecial
    simp only [Style.isWritable, Bool.or_eq_true, Bool.and_eq_true, beq_iff_eq, decide_eq_true_eq,
      bne_iff_ne] at hwritable
    simp only [Source.isAllowed, Bool.or_eq_true, Bool.and_eq_true, beq_iff_eq, decide_eq_true_eq]
    omega

/-- A text without special characters does not start with a byte order mark. -/
theorem head?_ne_of_clear {cs : List Char} (h : Clear cs) : cs.head? ≠ some orderMark := by
  intro hhead
  exact absurd (h _ (List.mem_of_head? hhead)) (by decide)

end Yaml.Layout

/-! ## Streams of pages -/

/-- What a list of layouts that are read may come to: a tree for each, or an error, if one of them
denotes no tree or if `b`. -/
def ReadsAs (b : Prop) (ds : List Layout) (r : Except ReadError (List Tree)) : Prop :=
  (∃ us, r = .ok us ∧ List.Forall₂ (fun (d : Layout) u => ∃ n, d.Composes n ∧ Node.Denotes n u) ds us) ∨
    ∃ e, r = .error e ∧ (b ∨ ∃ d ∈ ds, ∃ n, d.Composes n ∧ ∀ t, ¬ Node.Denotes n t)

namespace TreeStream

variable {b : Prop} {N : Nat}

/-- The trees of a stream are that of its next document and those of what is left. -/
theorem readsAs_cons {s : TreeStream} {fuel : Nat} {d : Layout} {ds : List Layout}
    {ks : List Yaml.TokenKind} (hs : s.expansion.followed = [])
    (hnext : DocumentStream.Outcome b DocumentStream.next? s.documents
      (DocumentStream.Passed b N [] d ks))
    (hrest : ∀ r : TreeStream, r.expansion.followed = [] → r.documents.started = true →
      r.documents.anchors = [] → Yaml.EventStream.Offers b N r.documents.events [.document false] ks →
      ReadsAs b ds (readAll fuel r)) :
    ReadsAs b (d.reread maxDepth :: ds) (readAll (fuel + 1) s) := by
  unfold DocumentStream.Outcome at hnext
  cases hrun : DocumentStream.next?.run s.documents with
  | error e =>
    rw [hrun] at hnext
    refine Or.inr ⟨.yaml e, ?_, Or.inl hnext⟩
    rw [readAll]
    have hstep : next? s = .error (.yaml e) s := by
      unfold next?
      rw [hrun]
    rw [hstep]
  | ok p =>
    obtain ⟨r, st⟩ := p
    rw [hrun] at hnext
    obtain ⟨n, rfl, hn, hstarted, hanchors, hoffers⟩ := hnext
    obtain ⟨s', hdocs, hfollowed, hanswer⟩ := next?_alone hs hrun
    cases htree : Tree.ofDocument ⟨n, []⟩ with
    | error f =>
      -- the document denotes no tree, so nothing is read of the others
      have hof : alone ⟨n, []⟩ = .error (.tree f) := by rw [alone, htree]
      refine Or.inr ⟨.tree f, ?_, Or.inr ⟨_, List.mem_cons_self, n, hn, fun t ht => ?_⟩⟩
      · rcases hanswer with ⟨t, halone, -⟩ | ⟨e, halone, hstep⟩
        · cases halone.symm.trans hof
        · cases halone.symm.trans hof
          rw [readAll, hstep]
      · cases (Tree.ofDocument_eq_ok_iff.2 ht).symm.trans htree
    | ok u =>
      have hof : alone ⟨n, []⟩ = .ok (some u) := by rw [alone, htree]
      have hstep : next? s = .ok (some u) s' := by
        rcases hanswer with ⟨t, halone, hstep⟩ | ⟨e, halone, -⟩
        · cases halone.symm.trans hof
          exact hstep
        · cases halone.symm.trans hof
      have hu := Tree.ofDocument_eq_ok_iff.1 htree
      rw [readAll, hstep]
      rcases hrest s' hfollowed (hdocs ▸ hstarted) (hdocs ▸ hanchors) (hdocs ▸ hoffers) with
        ⟨us, hus, hall⟩ | ⟨e, he, hwhy⟩
      · exact Or.inl ⟨u :: us, by simp only [hus]; rfl, .cons ⟨n, hn, hu⟩ hall⟩
      · refine Or.inr ⟨e, by simp only [he]; rfl, hwhy.imp_right ?_⟩
        rintro ⟨d', hd', hno⟩
        exact ⟨d', List.mem_cons_of_mem _ hd', hno⟩

/-- Behind a document there is some token, which does not end it. -/
theorem exists_pagesKinds (ds : List Layout) :
    ∃ k ks, pagesKinds ds ++ [.streamEnd] = k :: ks ∧ k ≠ .documentEnd := by
  cases ds with
  | nil => exact ⟨_, _, rfl, by simp⟩
  | cons d ds => exact ⟨_, _, rfl, by simp⟩

/-- The documents behind another one are read one by one. -/
theorem readsAs_pages (ds : List Layout) : ∀ {s : TreeStream} {fuel : Nat}, ds.length < fuel →
    (∀ d ∈ ds, d.Fits 0 ∧ (page d).length ≤ N) → s.expansion.followed = [] →
    s.documents.started = true → s.documents.anchors = [] →
    Yaml.EventStream.Offers b N s.documents.events [.document false] (pagesKinds ds ++ [.streamEnd]) →
    ReadsAs b (ds.map (reread maxDepth)) (readAll fuel s) := by
  induction ds with
  | nil =>
    intro s fuel hfuel _ _ hstarted _ hoffers
    obtain ⟨fuel, rfl⟩ := Nat.exists_eq_add_one_of_ne_zero (Nat.ne_of_gt hfuel)
    have hend := DocumentStream.outcome_end hstarted hoffers
    unfold DocumentStream.Outcome at hend
    rw [readAll]
    unfold next?
    cases hrun : DocumentStream.next?.run s.documents with
    | error e =>
      rw [hrun] at hend
      exact Or.inr ⟨.yaml e, rfl, Or.inl hend⟩
    | ok p =>
      obtain ⟨r, st⟩ := p
      rw [hrun] at hend
      obtain rfl : r = none := hend
      exact Or.inl ⟨[], rfl, .nil⟩
  | cons d ds ih =>
    intro s fuel hfuel hall hs hstarted hanchors hoffers
    obtain ⟨fuel, rfl⟩ := Nat.exists_eq_add_one_of_ne_zero (Nat.ne_of_gt (Nat.zero_lt_of_lt hfuel))
    obtain ⟨⟨hfits, hlength⟩, hall⟩ := List.forall_mem_cons.1 hall
    obtain ⟨k, ks, hks, hk⟩ := exists_pagesKinds ds
    -- the token behind the root starts another document or ends the stream
    have hkinds : pagesKinds (d :: ds) ++ [.streamEnd] =
        .documentStart :: ((d.reread maxDepth).kinds ++ k :: ks) := by
      rw [← hks]
      simp [pagesKinds]
    rw [hkinds] at hoffers
    have hnext := DocumentStream.outcome_next hfits hlength hk hstarted hoffers
    rw [hanchors] at hnext
    refine readsAs_cons hs hnext fun r hr hrstarted hranchors hroffers => ?_
    rw [← hks] at hroffers
    exact ih (Nat.lt_of_succ_lt_succ hfuel) hall hr hrstarted hranchors hroffers

end TreeStream

/-- There are no more documents than characters. -/
theorem length_le_pages (ds : List Layout) : ds.length ≤ (pages ds).length ∧
    ∀ d ∈ ds, (page d).length ≤ (pages ds).length := by
  induction ds with
  | nil => exact ⟨Nat.le_refl 0, List.forall_mem_nil _⟩
  | cons d ds ih =>
    have htext : pages (d :: ds) = ['-', '-', '-', '\n'] ++ (page d ++ pages ds) := by simp [pages]
    rw [htext]
    simp only [List.length_append, List.length_cons, List.length_nil]
    refine ⟨by omega, List.forall_mem_cons.2 ⟨by omega, fun e he => ?_⟩⟩
    have := ih.2 e he
    omega

/-- The text of documents is read as what is read back of their layouts. -/
theorem readsAs_parse {b : Prop} {d : Layout} {ds : List Layout}
    (hall : ∀ e ∈ d :: ds, e.Fits 0 ∧ e.IsRoot ∧ (e.reread maxDepth ≠ e → b)) :
    ReadsAs b ((d :: ds).map (reread maxDepth)) (Tree.parse (encode (page d ++ pages ds))) := by
  obtain ⟨⟨hfits, -, -⟩, hall'⟩ := List.forall_mem_cons.1 hall
  have hclear : Clear (page d ++ pages ds) :=
    Yaml.clear_append.2 ⟨Layout.clear_lines d _ hfits, Layout.clear_pages fun e he => (hall' e he).1⟩
  -- the decoder of the bytes gives the characters of the pages, in blocks, and no error
  obtain ⟨blocks, hsource, hflat⟩ := Yaml.Source.ofBytes_encode (Layout.isAllowed_of_clear hclear)
    (Layout.head?_ne_of_clear hclear)
  have hsize : (Yaml.Source.mk blocks none).size = (page d ++ pages ds).length := by
    rw [Yaml.Source.size_eq, hflat]
  obtain ⟨hdocs, hpages⟩ := length_le_pages ds
  unfold Tree.parse Tree.readAll
  rw [hsource, hsize]
  generalize hN : (page d ++ pages ds).length + 8 = N
  have hlength : (page d ++ pages ds).length = (page d).length + (pages ds).length := List.length_append
  have hat : Yaml.Cursor.At N (Yaml.Cursor.ofSource ⟨blocks, none⟩) (page d ++ pages ds) {} 0 := by
    refine Yaml.Cursor.Shows.at_zero ⟨⟨0, ?_, Or.inl rfl⟩, rfl, rfl, rfl, hclear, ?_, by omega, rfl⟩
    · rw [List.replicate_zero, List.append_nil]
      exact hflat
    · rw [← hN, ← hsize]
      rfl
  -- the first document is read from the start of the stream, the others from a document start each
  obtain ⟨k, ks, hks, hk⟩ := TreeStream.exists_pagesKinds ds
  have hpeek : Leads b Yaml.TokenStream.peek (Yaml.TokenStream.ofSource ⟨blocks, none⟩) fun t s =>
      t.kind = .streamStart ∧ Yaml.TokenStream.Holds b N s t ((d.reread maxDepth).kinds ++ k :: ks) := by
    rw [← hks]
    refine Yaml.TokenStream.leads_peek_start (n := (page d ++ pages ds).length + 1) rfl rfl rfl rfl rfl hat
      (by omega) fun hstands => ?_
    exact Layout.delivers_pages hall hstands rfl
  have hfirst : DocumentStream.Outcome b DocumentStream.next? (DocumentStream.ofSource ⟨blocks, none⟩)
      (DocumentStream.Passed b N [] d (k :: ks)) :=
    DocumentStream.outcome_first hfits (by omega) hk rfl rfl rfl hpeek
  refine TreeStream.readsAs_cons (N := N) rfl hfirst fun r hr hstarted hanchors hoffers => ?_
  rw [← hks] at hoffers
  refine TreeStream.readsAs_pages ds (by omega) (fun e he => ⟨(hall' e he).1, ?_⟩) hr hstarted hanchors
    hoffers
  have := hpages e he
  omega

/-! ## Trees that are read back -/

/-- The rules under which a tree is read back as it was written. -/
structure Tree.Faithful (t : Tree) : Prop where
  /-- No name is the merge key. -/
  names : ∀ x ∈ t.names, x ≠ mergeKey
  /-- No literal block starts with a line break or a tab. -/
  literals : ∀ cs ∈ t.layout.literals, Kept cs
  /-- Block collections are not nested more deeply than a reader follows. -/
  depth : t.layout.depth false ≤ maxDepth

namespace Tree

instance (cs : List Char) : Decidable (Kept cs) := inferInstanceAs (Decidable (_ ∧ _))

/-- A name is a text if it is not empty and its bytes are those of characters. -/
theorem isText_iff {x : Text} : IsText x ↔ x ≠ [] ∧ (Utf8.chars? x).isSome := by
  constructor
  · rintro ⟨cs, hne, rfl⟩
    exact ⟨fun hnil => hne (Utf8.encode_injective hnil), by rw [Utf8.chars?_encode]; rfl⟩
  · rintro ⟨hne, hsome⟩
    obtain ⟨cs, hcs⟩ := Option.isSome_iff_exists.1 hsome
    obtain rfl := Utf8.chars?_eq_some_iff.1 hcs
    refine ⟨cs, ?_, rfl⟩
    rintro rfl
    exact hne rfl

instance (x : Text) : Decidable (IsText x) := decidable_of_iff _ isText_iff.symm

instance (t : Tree) : Decidable t.Faithful :=
  decidable_of_iff ((∀ x ∈ t.names, x ≠ mergeKey) ∧ (∀ cs ∈ t.layout.literals, Kept cs) ∧
      t.layout.depth false ≤ maxDepth)
    ⟨fun h => ⟨h.1, h.2.1, h.2.2⟩, fun h => ⟨h.names, h.literals, h.depth⟩⟩

variable {t : Tree} {ts : List Tree}

/-- A tree is faithful if no name in it is the merge key and its layout is read as it is. -/
theorem faithful_iff (h : ∀ x ∈ t.names, IsText x) :
    t.Faithful ↔ (∀ x ∈ t.names, x ≠ mergeKey) ∧ t.layout.reread maxDepth = t.layout := by
  rw [Layout.reread_eq_iff t.layout (t.fits_layout h)]
  constructor
  · intro hf
    exact ⟨hf.names, hf.literals, hf.depth⟩
  · rintro ⟨hnames, hliterals, hdepth⟩
    exact ⟨hnames, hliterals, hdepth⟩

/-- What is read of the text of a tree denotes the tree exactly if the tree keeps the rules. -/
theorem denotes_iff_faithful {n : Node} (h : ∀ x ∈ t.names, IsText x)
    (hn : (t.layout.reread maxDepth).Composes n) : Node.Denotes n t ↔ t.Faithful :=
  (t.recovered h false maxDepth n hn).trans (faithful_iff h).symm

theorem ofNodes_toNodes (ts : List Tree) : ofNodes false (toNodes ts) = ts.map layout := by
  induction ts with
  | nil => rfl
  | cons t ts ih =>
    rw [toNodes, ofNodes, ih]
    rfl

/-- Trees are written as the pages of their layouts. -/
theorem format_eq (h : ∀ u ∈ t :: ts, ∀ x ∈ u.names, IsText x) :
    format (t :: ts) = .ok (encode (page t.layout ++ pages (ts.map layout))) := by
  have hregular : ∀ n ∈ t.toNode :: toNodes ts, Regular n := by
    have hnodes : t.toNode :: toNodes ts = (t :: ts).map toNode := by
      rw [toNodes_eq_map, List.map_map]
      rfl
    rw [hnodes]
    exact List.forall_mem_map.2 fun u hu => u.regular (h u hu)
  show (Yaml.Print.documents (t.toNode :: toNodes ts)).bind Yaml.Print.stream = _
  rw [Yaml.Print.stream_eq hregular, ofNodes_toNodes]
  rfl

/-- Trees are read back if what is read of each layout denotes its tree, and only then. -/
theorem eq_ok_iff_of_readsAs {b : Prop} {r : Except ReadError (List Tree)}
    (h : ∀ t ∈ ts, ∀ x ∈ t.names, IsText x) (hb : b → ∃ t ∈ ts, ¬ t.Faithful)
    (hr : ReadsAs b (ts.map fun t => t.layout.reread maxDepth) r) :
    r = .ok ts ↔ ∀ t ∈ ts, t.Faithful := by
  rcases hr with ⟨us, rfl, hall⟩ | ⟨e, rfl, hwhy⟩
  · rw [List.forall₂_map_left_iff] at hall
    constructor
    · rintro ⟨rfl⟩ t ht
      obtain ⟨n, hn, hdenotes⟩ := List.forall₂_same.1 hall t ht
      exact (denotes_iff_faithful (h t ht) hn).1 hdenotes
    · intro hfaithful
      have hboth := (List.forall₂_and_left ts us).2 ⟨fun t ht => And.intro (h t ht) (hfaithful t ht), hall⟩
      have heq : List.Forall₂ (· = ·) ts us := by
        refine hboth.imp ?_
        rintro t u ⟨⟨ht, hf⟩, n, hn, hu⟩
        exact ((denotes_iff_faithful ht hn).2 hf).unique hu
      rw [List.forall₂_eq_eq_eq] at heq
      rw [heq]
  · constructor
    · intro heq
      cases heq
    · intro hfaithful
      rcases hwhy with hb' | ⟨d, hd, n, hn, hno⟩
      · obtain ⟨t, ht, hnot⟩ := hb hb'
        exact absurd (hfaithful t ht) hnot
      · obtain ⟨t, ht, rfl⟩ := List.mem_map.1 hd
        exact absurd ((denotes_iff_faithful (h t ht) hn).2 (hfaithful t ht)) (hno t)

/-- Trees with UTF-8 names that are not empty can be written, and the text is read as the trees
exactly if all of them keep the rules. -/
theorem parse_format_iff (ts : List Tree) (hne : ts ≠ []) (hnames : ∀ t ∈ ts, ∀ x ∈ t.names, IsText x) :
    ∃ text, format ts = .ok text ∧ (parse text = .ok ts ↔ ∀ t ∈ ts, t.Faithful) := by
  obtain ⟨t, us, rfl⟩ := List.exists_cons_of_ne_nil hne
  refine ⟨_, format_eq hnames, ?_⟩
  -- a reader may fail only where a layout is not read back, and there a tree breaks a rule
  have hall : ∀ e ∈ t.layout :: us.map layout, e.Fits 0 ∧ e.IsRoot ∧
      (e.reread maxDepth ≠ e → ∃ u ∈ t :: us, ¬ u.Faithful) := by
    rw [← List.map_cons]
    refine List.forall_mem_map.2 fun u hu => ⟨u.fits_layout (hnames u hu), u.isRoot_layout, fun hread => ?_⟩
    exact ⟨u, hu, fun hf => hread ((faithful_iff (hnames u hu)).1 hf).2⟩
  have hreads := readsAs_parse hall
  rw [← List.map_cons, List.map_map] at hreads
  exact eq_ok_iff_of_readsAs hnames id hreads

/-- A tree that is too great for one line, with a name on a line of its own. -/
def spread (x : Text) : Tree := .declare x (.seq (List.replicate flowLimit (.literal 1)))

/-- A name with a line break inside is read back beside one that is almost the merge key. A name
that starts with a line break is not, and neither is the merge key. -/
theorem parse_format_iff_spread :
    (∃ text, format [spread (utf8 "a\nb"), .var (utf8 "<")] = .ok text ∧
        parse text = .ok [spread (utf8 "a\nb"), .var (utf8 "<")]) ∧
      (∃ text, format [spread (utf8 "\na")] = .ok text ∧ parse text ≠ .ok [spread (utf8 "\na")]) ∧
      ∃ text, format [.var mergeKey] = .ok text ∧ parse text ≠ .ok [.var mergeKey] := by
  refine ⟨?_, ?_, ?_⟩
  · obtain ⟨text, htext, hiff⟩ := parse_format_iff [spread (utf8 "a\nb"), .var (utf8 "<")] (by simp)
      (by decide +kernel)
    exact ⟨text, htext, hiff.2 (by decide +kernel)⟩
  · obtain ⟨text, htext, hiff⟩ := parse_format_iff [spread (utf8 "\na")] (by simp) (by decide +kernel)
    exact ⟨text, htext, fun hparse => absurd (hiff.1 hparse) (by decide +kernel)⟩
  · obtain ⟨text, htext, hiff⟩ := parse_format_iff [.var mergeKey] (by simp) (by decide +kernel)
    exact ⟨text, htext, fun hparse => absurd (hiff.1 hparse) (by decide +kernel)⟩

end Tree

end TreeLang
