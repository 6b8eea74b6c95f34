import TreeLang.Proofs.Yaml.TokenQueue

/-!
# Layouts

A layout is a document as it is laid out on the page: scalars with the styles they are written in,
and lists and entries of one key, each on one line or over several. It has a text (`line`, `lines`)
and the kinds of the tokens in that text (`kinds`).

Not every layout is read back as it was. A literal block loses a break at its start, one that starts
with a tab is refused, and so are block collections that are nested too deeply. What is read instead
is the layout `reread`, with an empty text in the place of what is refused. A layout that fits
(`Layout.Fits`) is otherwise read as written.
-/

set_option autoImplicit false

namespace TreeLang.Yaml

open Style (spaces)
open TokenStream (maxDepth keyReach Opens Uncommented)

/-- Scalars, lists and entries as they are laid out: `flow` tells whether a collection is written on
one line. An entry is a mapping of one key. -/
inductive Layout where
  | scalar (style : Style) (chars : List Char)
  | list (flow : Bool) (items : List Layout)
  | entry (flow : Bool) (key : List Char) (operand : Layout)

namespace Layout

/-- Whether a layout is a collection over several lines. -/
def isBlock : Layout → Bool
  | .scalar _ _ => false
  | .list flow _ => !flow
  | .entry flow _ _ => !flow

/-! ## Texts -/

mutual

/-- The text of a layout on one line. -/
def line (indent : Nat) : Layout → List Char
  | .scalar style cs => style.write indent cs
  | .list _ items => '[' :: (lineItems (indent + 2) true items ++ [']'])
  | .entry _ key d => '\x7b' :: (key ++ ':' :: ' ' :: (line (indent + 2) d ++ ['\x7d']))

/-- The text of items on one line, with a comma in front of all but the first. -/
def lineItems (indent : Nat) : Bool → List Layout → List Char
  | _, [] => []
  | first, d :: ds =>
    (if first then [] else [',', ' ']) ++ (line indent d ++ lineItems indent false ds)

end

/-- What is between a key and its operand: a block collection starts on a line of its own. -/
def gap (indent : Nat) (d : Layout) : List Char := if d.isBlock then '\n' :: spaces indent else [' ']

mutual

/-- The text of a layout over several lines, with the end of the last line. The first line is not
indented. -/
def lines (indent : Nat) : Layout → List Char
  | .list false items => linesItems indent true items
  | .entry false key d => key ++ ':' :: (gap (indent + 2) d ++ lines (indent + 2) d)
  | d => line indent d ++ Scalar.closing (line indent d)

/-- The lines of items, each behind a dash. -/
def linesItems (indent : Nat) : Bool → List Layout → List Char
  | _, [] => []
  | first, d :: ds =>
    (if first then [] else spaces indent) ++
      '-' :: ' ' :: (lines (indent + 2) d ++ linesItems indent false ds)

end

/-- The text of a document. -/
def page (d : Layout) : List Char := lines (if d.isBlock then 0 else 2) d

/-- The text of documents, each behind a line of dashes. -/
def pages (ds : List Layout) : List Char := ds.flatMap fun d => '-' :: '-' :: '-' :: '\n' :: page d

/-! ## Tokens -/

/-- The token that starts a list. -/
def listStart (flow : Bool) : TokenKind := if flow then .flowSequenceStart else .blockSequenceStart

/-- The token that ends a list. -/
def listEnd (flow : Bool) : TokenKind := if flow then .flowSequenceEnd else .blockEnd

/-- The token that starts an entry. -/
def entryStart (flow : Bool) : TokenKind := if flow then .flowMappingStart else .blockMappingStart

/-- The token that ends an entry. -/
def entryEnd (flow : Bool) : TokenKind := if flow then .flowMappingEnd else .blockEnd

/-- The token in front of an item: a dash, or the comma between items on one line. -/
def itemMark (flow first : Bool) : List TokenKind :=
  if flow then (if first then [] else [.flowEntry]) else [.blockEntry]

theorem itemMark_first : itemMark true true = [] := rfl

theorem itemMark_comma : itemMark true false = [.flowEntry] := rfl

theorem itemMark_dash (first : Bool) : itemMark false first = [.blockEntry] := rfl

mutual

/-- The kinds of the tokens of a layout. -/
def kinds : Layout → List TokenKind
  | .scalar style cs => [.scalar (Utf8.encode cs) (style == .plain)]
  | .list flow items => listStart flow :: (itemsKinds flow true items ++ [listEnd flow])
  | .entry flow key d =>
    entryStart flow :: .key :: .scalar (Utf8.encode key) true :: .value :: (kinds d ++ [entryEnd flow])

/-- The kinds of the tokens of items. -/
def itemsKinds (flow : Bool) : Bool → List Layout → List TokenKind
  | _, [] => []
  | first, d :: ds => itemMark flow first ++ (kinds d ++ itemsKinds flow false ds)

end

/-! ## What is read back -/

/-- The empty text in the place of what cannot be read. -/
def spoiled : Layout := .scalar .double []

mutual

/-- What is read back of a layout, where `room` more block collections may be opened. -/
def reread : Nat → Layout → Layout
  | _, .scalar .literal cs =>
    if cs.head? = some '\t' then spoiled else .scalar .literal (Scalar.readBack cs)
  | 0, .list false _ => spoiled
  | room + 1, .list false items => .list false (rereadAll room items)
  | 0, .entry false _ _ => spoiled
  | room + 1, .entry false key d => .entry false key (reread room d)
  | _, d => d

/-- What is read back of layouts. -/
def rereadAll : Nat → List Layout → List Layout
  | _, [] => []
  | room, d :: ds => reread room d :: rereadAll room ds

end

theorem reread_scalar (room : Nat) {style : Style} (cs : List Char) (h : style ≠ .literal) :
    reread room (.scalar style cs) = .scalar style cs := by
  cases style with
  | literal => exact absurd rfl h
  | _ => rw [reread] <;> nofun

theorem reread_flow {d : Layout} (room : Nat) (hblock : d.isBlock = false)
    (hscalar : ∀ style cs, d ≠ .scalar style cs) : d.reread room = d := by
  cases d with
  | scalar style cs => exact absurd rfl (hscalar style cs)
  | list flow items =>
    cases flow with
    | true => rw [reread] <;> nofun
    | false => cases hblock
  | entry flow key d =>
    cases flow with
    | true => rw [reread] <;> nofun
    | false => cases hblock

/-- The kinds of the tokens that are read of documents, each behind a line of dashes. -/
def pagesKinds (ds : List Layout) : List TokenKind :=
  ds.flatMap fun d => .documentStart :: (reread maxDepth d).kinds

/-! ## Layouts that fit -/

/-- Whether a style can hold a text, inside flow collections or outside. -/
def Holds (inFlow : Bool) : Style → List Char → Prop
  | .plain, cs => cs ≠ [] ∧ Scalar.PlainRule inFlow cs
  | .single, cs => Scalar.SingleRule cs
  | .double, _ => True
  | .literal, cs => inFlow = false ∧ cs ≠ [] ∧ Clear cs

/-- A key that is recognized as one, inside flow collections and outside. -/
structure KeyRule (key : List Char) : Prop where
  ne : key ≠ []
  short : key.length ≤ keyReach
  plain : ∀ inFlow, Scalar.PlainRule inFlow key

mutual

/-- Inside `level` flow collections a layout can be written as it says, and what is on one line is
not nested too deeply. -/
def Fits : Nat → Layout → Prop
  | level, .scalar style cs => Holds (decide (0 < level)) style cs
  | level, .list true items => level < maxDepth ∧ FitsAll (level + 1) items
  | level, .list false items => level = 0 ∧ items ≠ [] ∧ FitsAll 0 items
  | level, .entry true key d => level < maxDepth ∧ KeyRule key ∧ Fits (level + 1) d
  | level, .entry false key d => level = 0 ∧ KeyRule key ∧ Fits 0 d

/-- Layouts that fit side by side. -/
def FitsAll : Nat → List Layout → Prop
  | _, [] => True
  | level, d :: ds => Fits level d ∧ FitsAll level ds

end

/-- What may be a whole document here: a plain scalar, a collection on one line or an entry. -/
def IsRoot : Layout → Prop
  | .scalar style _ => style = .plain
  | .list flow _ => flow = true
  | .entry _ _ _ => True

theorem Fits.items {level : Nat} {flow : Bool} {items : List Layout} (h : (list flow items).Fits level) :
    ∃ inner, FitsAll inner items := by
  cases flow <;> rw [Fits] at h
  · exact ⟨_, h.2.2⟩
  · exact ⟨_, h.2⟩

theorem Fits.entry {level : Nat} {flow : Bool} {key : List Char} {d : Layout}
    (h : (Layout.entry flow key d).Fits level) : KeyRule key ∧ ∃ inner, d.Fits inner := by
  cases flow <;> rw [Fits] at h
  · exact ⟨h.2.1, _, h.2.2⟩
  · exact ⟨h.2.1, _, h.2.2⟩

/-- Inside flow collections everything is on one line. -/
theorem isBlock_eq {level : Nat} {d : Layout} (h : d.Fits (level + 1)) : d.isBlock = false := by
  cases d with
  | scalar style cs => rfl
  | list flow items =>
    cases flow with
    | true => rfl
    | false =>
      rw [Fits] at h
      exact absurd h.1 (Nat.succ_ne_zero level)
  | entry flow key d =>
    cases flow with
    | true => rfl
    | false =>
      rw [Fits] at h
      exact absurd h.1 (Nat.succ_ne_zero level)

/-! ## Facts about the texts -/

theorem length_scalar_pos {inFlow : Bool} {style : Style} {cs : List Char} (h : Holds inFlow style cs)
    (indent : Nat) : 0 < (style.write indent cs).length := by
  cases style with
  | plain => exact List.length_pos_iff.2 h.1
  | single => exact Nat.succ_pos _
  | double => exact Nat.succ_pos _
  | literal => exact Nat.succ_pos _

theorem lines_leaf {d : Layout} (h : d.isBlock = false) (indent : Nat) :
    lines indent d = line indent d ++ Scalar.closing (line indent d) := by
  rw [lines]
  · rintro items rfl
    cases h
  · rintro key d rfl
    cases h

theorem getLast?_indented (indent : Nat) (cs : List Char) : ∀ atStart : Bool,
    (Style.indented indent atStart cs).getLast? = cs.getLast? := by
  induction cs with
  | nil => exact fun _ => rfl
  | cons c cs ih =>
    intro atStart
    rw [Style.indented]
    split
    · rw [List.getLast?_cons, List.getLast?_cons, ih]
    · rw [List.getLast?_append, List.getLast?_cons, List.getLast?_cons, ih, Option.some_or]

/-- A literal block ends in a break where its text does. -/
theorem closing_literalForm {indent : Nat} {cs : List Char} (hne : cs ≠ []) :
    Scalar.closing (Style.literalForm indent cs) = Scalar.closing cs := by
  have hlast := getLast?_indented indent cs true
  have hform : Style.indented indent true cs ≠ [] := by
    intro hnil
    rw [hnil, List.getLast?_nil] at hlast
    exact hne (List.getLast?_eq_none_iff.1 hlast.symm)
  unfold Style.literalForm
  rw [Scalar.closing_append hform]
  unfold Scalar.closing Style.endsIn
  rw [hlast]

theorem closing_concat {c : Char} (hc : isBreak c = false) (cs : List Char) :
    Scalar.closing (cs ++ [c]) = ['\n'] := by
  rw [Scalar.closing_append (List.cons_ne_nil c [])]
  exact Scalar.closing_word (List.forall_mem_singleton.2 hc)

/-- What is written on one line does not end in a break, apart from literal blocks. -/
theorem closing_line {level indent : Nat} {d : Layout} (h : d.Fits level)
    (hliteral : ∀ cs, d ≠ .scalar .literal cs) : Scalar.closing (line indent d) = ['\n'] := by
  cases d with
  | scalar style cs =>
    rw [line]
    cases style with
    | plain =>
      rw [Fits] at h
      exact Scalar.closing_word h.2.isBreak
    | single => exact closing_concat (c := '\'') rfl _
    | double => exact closing_concat (c := '"') rfl _
    | literal => exact absurd rfl (hliteral cs)
  | list flow items =>
    rw [line]
    exact closing_concat (c := ']') rfl ('[' :: _)
  | entry flow key d =>
    have hsplit : line indent (.entry flow key d) =
        ('\x7b' :: (key ++ ':' :: ' ' :: line (indent + 2) d)) ++ ['\x7d'] := by
      rw [line]
      simp
    rw [hsplit]
    exact closing_concat (c := '\x7d') rfl _

/-- A token starts where a layout does. -/
theorem opens_line {level : Nat} {d : Layout} (h : d.Fits level) (indent : Nat) (rest : List Char) :
    Opens (line indent d ++ rest) := by
  cases d with
  | scalar style cs =>
    rw [line]
    cases style with
    | plain =>
      rw [Fits] at h
      exact TokenStream.opens_plain h.1 h.2 rest
    | single => exact ⟨rfl, rfl, rfl⟩
    | double => exact ⟨rfl, rfl, rfl⟩
    | literal => exact ⟨rfl, rfl, rfl⟩
  | list flow items =>
    rw [line]
    exact ⟨rfl, rfl, rfl⟩
  | entry flow key d =>
    rw [line]
    exact ⟨rfl, rfl, rfl⟩

/-- A layout over several lines opens a node; an empty list is never written so. -/
theorem opens_lines {d : Layout} (h : d.Fits 0) (indent : Nat) (rest : List Char) :
    Opens (lines indent d ++ rest) := by
  cases hblock : d.isBlock with
  | false =>
    rw [lines_leaf hblock, List.append_assoc]
    exact opens_line h indent _
  | true =>
    cases d with
    | scalar style cs => cases hblock
    | list flow items =>
      cases flow with
      | true => cases hblock
      | false =>
        obtain ⟨-, hne, -⟩ := (by rwa [Fits] at h : _ ∧ _ ∧ _)
        obtain ⟨d, ds, rfl⟩ := List.exists_cons_of_ne_nil hne
        rw [lines, linesItems, if_pos rfl]
        exact ⟨rfl, rfl, rfl⟩
    | entry flow key d =>
      cases flow with
      | true => cases hblock
      | false =>
        obtain ⟨-, hkey, -⟩ := (by rwa [Fits] at h : _ ∧ _ ∧ _)
        rw [lines, List.append_assoc]
        exact TokenStream.opens_plain hkey.ne (hkey.plain false) _

end Layout

end TreeLang.Yaml
