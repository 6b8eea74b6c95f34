import TreeLang.Proofs.Yaml.Layout
import TreeLang.Yaml.Print

/-!
# The layout of a node

`Layout.ofNode` is the layout in which a node is written. It stands for nodes that are `Regular`:
their texts are UTF-8 and not empty, their mappings have one key, which can be written plainly, and
they have no aliases. The text of the layout is what is written of the node (`Print.inline_eq`,
`Print.document_eq`), also for several documents (`Print.stream_eq`).

The layout of a regular node fits if its flow collections are not nested too deeply
(`Layout.fits_ofNode`).
-/

set_option autoImplicit false

namespace TreeLang.Yaml

open Style (spaces)
open TokenStream (maxDepth)
open Utf8 (encode)

namespace Layout

/-! ## Layouts of nodes -/

/-- The characters of a text. -/
def charsOf (t : Text) : List Char := (Utf8.chars? t).getD []

@[simp] theorem charsOf_encode (cs : List Char) : charsOf (encode cs) = cs := by
  rw [charsOf, Utf8.chars?_encode, Option.getD_some]

mutual

/-- The layout in which a node is written, inside flow collections or outside. -/
def ofNode (inFlow : Bool) : Node → Layout
  | .scalar _ tag v => .scalar (Style.choose inFlow tag (charsOf v)) (charsOf v)
  | .sequence _ _ flow items =>
    .list (inFlow || flow || items.isEmpty) (ofNodes (inFlow || flow || items.isEmpty) items)
  | .mapping _ _ flow [(.scalar _ _ k, v)] =>
    .entry (inFlow || flow) (charsOf k) (ofNode (inFlow || flow) v)
  | _ => spoiled

/-- The layouts of nodes side by side. -/
def ofNodes (inFlow : Bool) : List Node → List Layout
  | [] => []
  | n :: ns => ofNode inFlow n :: ofNodes inFlow ns

end

/-- Nodes that are written as layouts. -/
inductive Regular : Node → Prop
  | scalar {p : Place} {tag : Text} {cs : List Char} (hne : cs ≠ []) : Regular (.scalar p tag (encode cs))
  | sequence {p : Place} {tag : Text} {flow : Bool} {items : List Node}
      (hitems : ∀ n ∈ items, Regular n) : Regular (.sequence p tag flow items)
  | mapping {p q : Place} {tag ktag : Text} {flow : Bool} {key : List Char} {v : Node}
      (hkey : KeyRule key) (hplain : Style.choose true ktag key = .plain) (hv : Regular v) :
      Regular (.mapping p tag flow [(.scalar q ktag (encode key), v)])

theorem ofNodes_eq_map (inFlow : Bool) (ns : List Node) : ofNodes inFlow ns = ns.map (ofNode inFlow) := by
  induction ns with
  | nil => rfl
  | cons n ns ih => rw [ofNodes, ih, List.map_cons]

theorem fitsAll_iff {level : Nat} {ds : List Layout} : FitsAll level ds ↔ ∀ d ∈ ds, d.Fits level := by
  induction ds with
  | nil => simp [FitsAll]
  | cons d ds ih => rw [FitsAll, ih, List.forall_mem_cons]

/-! ## Depths and literal blocks -/

mutual

/-- The greatest number of collections of a form inside each other. -/
def depth (flow : Bool) : Layout → Nat
  | .scalar _ _ => 0
  | .list f items => depthAll flow items + if f = flow then 1 else 0
  | .entry f _ d => depth flow d + if f = flow then 1 else 0

/-- The greatest depth of layouts. -/
def depthAll (flow : Bool) : List Layout → Nat
  | [] => 0
  | d :: ds => max (depth flow d) (depthAll flow ds)

end

mutual

/-- The texts that are written as literal blocks. -/
def literals : Layout → List (List Char)
  | .scalar style cs => if style = .literal then [cs] else []
  | .list _ items => literalsAll items
  | .entry _ _ d => literals d

/-- The literal blocks of layouts. -/
def literalsAll : List Layout → List (List Char)
  | [] => []
  | d :: ds => literals d ++ literalsAll ds

end

theorem depthAll_le_iff {flow : Bool} {ds : List Layout} {n : Nat} :
    depthAll flow ds ≤ n ↔ ∀ d ∈ ds, d.depth flow ≤ n := by
  induction ds with
  | nil => simp [depthAll]
  | cons d ds ih => rw [depthAll, Nat.max_le, ih, List.forall_mem_cons]

/-- A text that a literal block does not change. -/
def Kept (cs : List Char) : Prop := cs.head? ≠ some '\t' ∧ Style.startsIn isBreak cs = false

theorem readBack_eq_iff {cs : List Char} : Scalar.readBack cs = cs ↔ Style.startsIn isBreak cs = false := by
  unfold Scalar.readBack
  cases hstart : Style.startsIn isBreak cs with
  | false => simp
  | true =>
    cases cs with
    | nil => cases hstart
    | cons c cs => simp

theorem reread_literal_eq_iff {room : Nat} {cs : List Char} :
    reread room (.scalar .literal cs) = .scalar .literal cs ↔ Kept cs := by
  rw [reread, Kept]
  by_cases htab : cs.head? = some '\t'
  · simp [htab, spoiled]
  · simp [htab, readBack_eq_iff]

mutual

/-- Inside flow collections nothing is changed. -/
theorem flow_intact : (d : Layout) → ∀ {level : Nat}, d.Fits (level + 1) →
    literals d = [] ∧ depth false d = 0
  | .scalar style cs, level, h => by
    rw [Fits] at h
    cases style with
    | literal => exact absurd h.1 (by simp)
    | _ => exact ⟨rfl, rfl⟩
  | .list true items, level, h => by
    obtain ⟨-, hitems⟩ := (by rwa [Fits] at h : _ ∧ _)
    rw [literals, depth]
    exact flow_intactAll items hitems
  | .list false items, level, h => absurd (isBlock_eq h) (by simp [isBlock])
  | .entry true key d, level, h => by
    obtain ⟨-, -, hd⟩ := (by rwa [Fits] at h : _ ∧ _ ∧ _)
    rw [literals, depth]
    exact flow_intact d hd
  | .entry false key d, level, h => absurd (isBlock_eq h) (by simp [isBlock])

theorem flow_intactAll : (ds : List Layout) → ∀ {level : Nat}, FitsAll (level + 1) ds →
    literalsAll ds = [] ∧ depthAll false ds = 0
  | [], _, _ => ⟨rfl, rfl⟩
  | d :: ds, level, h => by
    obtain ⟨hd, hds⟩ := (by rwa [FitsAll] at h : _ ∧ _)
    obtain ⟨hlit, hdepth⟩ := flow_intact d hd
    obtain ⟨hlits, hdepths⟩ := flow_intactAll ds hds
    rw [literalsAll, depthAll, hlit, hlits, hdepth, hdepths]
    exact ⟨rfl, rfl⟩

end

mutual

/-- A layout is read back as it is exactly when its literal blocks are kept and its block
collections are not nested too deeply. -/
theorem reread_eq_iff : (d : Layout) → ∀ {room : Nat}, d.Fits 0 →
    (reread room d = d ↔ (∀ cs ∈ d.literals, Kept cs) ∧ d.depth false ≤ room)
  | .scalar style cs, room, h => by
    by_cases hliteral : style = .literal
    · subst hliteral
      rw [reread_literal_eq_iff, literals, if_pos rfl, depth]
      simp
    · rw [reread_scalar room cs hliteral, literals, if_neg hliteral, depth]
      simp
  | .list true items, room, h => by
    obtain ⟨-, hitems⟩ := (by rwa [Fits] at h : _ ∧ _)
    obtain ⟨hlits, hdepth⟩ := flow_intactAll items hitems
    rw [reread_flow room rfl (by simp), literals, depth, hlits, hdepth]
    simp
  -- without room nothing is read of a block collection, which is at least one deep
  | .list false items, 0, h => by
    rw [reread, depth]
    simp [spoiled]
  | .list false items, room + 1, h => by
    obtain ⟨-, -, hitems⟩ := (by rwa [Fits] at h : _ ∧ _ ∧ _)
    rw [reread, literals, depth, if_pos rfl, Nat.add_le_add_iff_right, ← rereadAll_eq_iff items hitems]
    simp
  | .entry true key d, room, h => by
    obtain ⟨-, -, hd⟩ := (by rwa [Fits] at h : _ ∧ _ ∧ _)
    obtain ⟨hlits, hdepth⟩ := flow_intact d hd
    rw [reread_flow room rfl (by simp), literals, depth, hlits, hdepth]
    simp
  | .entry false key d, 0, h => by
    rw [reread, depth]
    simp [spoiled]
  | .entry false key d, room + 1, h => by
    obtain ⟨-, -, hd⟩ := (by rwa [Fits] at h : _ ∧ _ ∧ _)
    rw [reread, literals, depth, if_pos rfl, Nat.add_le_add_iff_right, ← reread_eq_iff d hd]
    simp

theorem rereadAll_eq_iff : (ds : List Layout) → ∀ {room : Nat}, FitsAll 0 ds →
    (rereadAll room ds = ds ↔ (∀ cs ∈ literalsAll ds, Kept cs) ∧ depthAll false ds ≤ room)
  | [], room, _ => by simp [rereadAll, literalsAll, depthAll]
  | d :: ds, room, h => by
    obtain ⟨hd, hds⟩ := (by rwa [FitsAll] at h : _ ∧ _)
    rw [rereadAll, literalsAll, depthAll, Nat.max_le, List.forall_mem_append, List.cons.injEq,
      reread_eq_iff d hd, rereadAll_eq_iff ds hds]
    exact and_and_and_comm

end

/-! ## Layouts of regular nodes fit -/

/-- The style that is chosen for a scalar can hold it. One with a line feed is literal or double. -/
theorem holds_choose (inFlow : Bool) (tag : Text) {cs : List Char} (hne : cs ≠ []) :
    Holds inFlow (Style.choose inFlow tag cs) cs := by
  unfold Style.choose
  split
  case isTrue hfeed =>
    split
    case isTrue hliteral =>
      simp only [Bool.and_eq_true, Bool.not_eq_true'] at hliteral
      refine ⟨hliteral.2, hne, fun c hc => ?_⟩
      have hallows := hliteral.1
      simp only [Style.allowsLiteral, Bool.not_eq_true', Bool.or_eq_false_iff, List.any_eq_false] at hallows
      simpa using hallows.2 c hc
    case isFalse => trivial
  case isFalse hfeed =>
    split
    case isTrue => trivial
    case isFalse =>
      split
      case isTrue hplain => exact ⟨hne, Scalar.plainRule_of_allowsPlain hplain⟩
      case isFalse =>
        split
        case isTrue hsingle => exact Scalar.singleRule_of_allowsSingle hsingle (by simpa using hfeed)
        case isFalse => trivial

/-- The layout of a regular node fits where its flow collections are not nested too deeply. -/
theorem fits_ofNode {n : Node} (h : Regular n) : ∀ {inFlow : Bool} {level : Nat},
    inFlow = decide (0 < level) → level + depth true (ofNode inFlow n) ≤ maxDepth →
      (ofNode inFlow n).Fits level := by
  -- the level counts the flow collections around the node, and the depth those still to come
  induction h with
  | scalar hne =>
    rintro inFlow level rfl -
    rw [ofNode, charsOf_encode, Fits]
    exact holds_choose _ _ hne
  | @sequence p tag flow items _ ih =>
    rintro inFlow level rfl hdepth
    rw [ofNode, depth, ofNodes_eq_map] at hdepth
    rw [ofNode, ofNodes_eq_map]
    cases hflow : (decide (0 < level) || flow || items.isEmpty) with
    | true =>
      rw [hflow, if_pos rfl] at hdepth
      rw [Fits, fitsAll_iff]
      refine ⟨by omega, List.forall_mem_map.2 fun n hn => ?_⟩
      have hle := depthAll_le_iff.1 (Nat.le_refl (depthAll true (items.map (ofNode true)))) _
        (List.mem_map_of_mem hn)
      exact ih n hn (by simp) (by omega)
    | false =>
      rw [hflow, if_neg Bool.false_ne_true] at hdepth
      simp only [Bool.or_eq_false_iff, decide_eq_false_iff_not, Nat.not_lt, Nat.le_zero_eq] at hflow
      obtain ⟨⟨rfl, -⟩, hitems⟩ := hflow
      rw [Fits, fitsAll_iff]
      refine ⟨rfl, ?_, List.forall_mem_map.2 fun n hn => ?_⟩
      · rintro heq
        rw [List.map_eq_nil_iff.1 heq] at hitems
        cases hitems
      · have hle := depthAll_le_iff.1 (Nat.le_refl (depthAll true (items.map (ofNode false)))) _
          (List.mem_map_of_mem hn)
        exact ih n hn rfl (by omega)
  | @mapping p q tag ktag flow key v hkey hplain _ ih =>
    rintro inFlow level rfl hdepth
    rw [ofNode, depth] at hdepth
    rw [ofNode, charsOf_encode]
    cases hflow : (decide (0 < level) || flow) with
    | true =>
      rw [hflow, if_pos rfl] at hdepth
      rw [Fits]
      exact ⟨by omega, hkey, ih (by simp) (by omega)⟩
    | false =>
      rw [hflow, if_neg Bool.false_ne_true] at hdepth
      simp only [Bool.or_eq_false_iff, decide_eq_false_iff_not, Nat.not_lt, Nat.le_zero_eq] at hflow
      obtain ⟨rfl, -⟩ := hflow
      rw [Fits]
      exact ⟨rfl, hkey, ih rfl (by omega)⟩

/-- A node in flow style has the same layout inside flow collections and outside. -/
theorem ofNode_flow {n : Node} (h : Regular n) (hblock : Print.isBlock n = false)
    (hscalar : ∀ p tag v, n ≠ .scalar p tag v) : ofNode true n = ofNode false n := by
  cases h with
  | scalar _ => exact absurd rfl (hscalar _ _ _)
  | @sequence p tag flow items _ =>
    have hflow : (flow || items.isEmpty) = true := by
      rw [Print.isBlock, ← Bool.not_or] at hblock
      exact Bool.not_eq_false' .. ▸ hblock
    rw [ofNode, ofNode, Bool.or_assoc, Bool.or_assoc, hflow, Bool.or_true, Bool.or_true]
  | @mapping p q tag ktag flow key v _ _ _ =>
    have hflow : flow = true := by simpa [Print.isBlock] using hblock
    rw [ofNode, ofNode, hflow]
    rfl

theorem isBlock_ofNode {n : Node} (h : Regular n) : (ofNode false n).isBlock = Print.isBlock n := by
  cases h with
  | scalar _ => rfl
  | sequence _ => simp [ofNode, isBlock, Print.isBlock]
  | mapping _ _ _ => simp [ofNode, isBlock, Print.isBlock]

end Layout

/-! ## What is written of a node -/

namespace Print

open Layout (line lineItems lines linesItems page pages ofNode ofNodes Regular)
open Scalar (closing)

theorem scalar_encode (inFlow : Bool) (indent : Nat) (tag : Text) (cs : List Char) :
    scalar inFlow indent tag (encode cs) =
      .ok (encode ((Style.choose inFlow tag cs).write indent cs)) := by
  rw [scalar, Utf8.chars?_encode]

/-! ### On one line -/

theorem join_line (indent : Nat) (ds : List Layout) :
    Text.join (utf8 ", ") (ds.map fun d => encode (line indent d)) =
      encode (lineItems indent true ds) := by
  induction ds with
  | nil => rfl
  | cons d ds ih =>
    have hsep : utf8 ", " = encode [',', ' '] := Utf8.utf8_eq_encode _
    cases ds with
    | nil => simp [Text.join, lineItems]
    | cons e ds =>
      show encode (line indent d) ++ utf8 ", " ++
        Text.join (utf8 ", ") ((e :: ds).map fun d => encode (line indent d)) = _
      rw [ih, hsep]
      simp [lineItems]

theorem inlineItems_eq {indent : Nat} {items : List Node} {text : Node → Text}
    (h : ∀ n ∈ items, inline indent n = .ok (text n)) :
    inlineItems indent items = .ok (items.map text) := by
  induction items with
  | nil => rfl
  | cons n ns ih =>
    obtain ⟨hn, hns⟩ := List.forall_mem_cons.1 h
    rw [inlineItems, hn, ih hns]
    rfl

/-- On one line a node is written as its layout says. -/
theorem inline_eq {n : Node} (h : Regular n) :
    ∀ indent, inline indent n = .ok (encode (line indent (ofNode true n))) := by
  induction h with
  | scalar _ =>
    intro indent
    rw [inline, scalar_encode, ofNode, Layout.charsOf_encode, line]
  | @sequence p tag flow items _ ih =>
    intro indent
    have hopen : utf8 "[" = encode ['['] := Utf8.utf8_eq_encode _
    have hclose : utf8 "]" = encode [']'] := Utf8.utf8_eq_encode _
    rw [inline, inlineItems_eq fun n hn => ih n hn (indent + 2)]
    show Except.ok _ = _
    have hmap : items.map (fun n => encode (line (indent + 2) (ofNode true n))) =
        (ofNodes true items).map fun d => encode (line (indent + 2) d) := by
      rw [Layout.ofNodes_eq_map, List.map_map]
      rfl
    rw [hmap, join_line, ofNode, line, hopen, hclose, ← Utf8.encode_append, ← Utf8.encode_append]
    rfl
  | @mapping p q tag ktag flow key v hkey hplain _ ih =>
    intro indent
    have hopen : utf8 "\x7b" = encode ['\x7b'] := Utf8.utf8_eq_encode _
    have hclose : utf8 "\x7d" = encode ['\x7d'] := Utf8.utf8_eq_encode _
    have hcolon : utf8 ": " = encode [':', ' '] := Utf8.utf8_eq_encode _
    rw [inline, inlineEntries, inline, scalar_encode, hplain, ih]
    show Except.ok (utf8 "\x7b" ++ (encode key ++ utf8 ": " ++ _) ++ utf8 "\x7d") = _
    rw [hopen, hclose, hcolon, ofNode, line, Layout.charsOf_encode]
    simp [Utf8.encode_append]

/-- So is a node that is not in block style. -/
theorem leaf_eq {n : Node} (h : Regular n) (hblock : isBlock n = false) (indent : Nat) :
    leaf indent n = .ok (encode (line indent (ofNode false n))) := by
  cases h with
  | scalar hne => rw [leaf, scalar_encode, ofNode, Layout.charsOf_encode, line]
  | sequence hitems =>
    rw [leaf, inline_eq (.sequence hitems), Layout.ofNode_flow (.sequence hitems) hblock (by simp)]
    simp
  | mapping hkey hplain hv =>
    rw [leaf, inline_eq (.mapping hkey hplain hv),
      Layout.ofNode_flow (.mapping hkey hplain hv) hblock (by simp)]
    simp

/-! ### Over several lines -/

theorem endLine_encode (w : List Char) : endLine (encode w) = encode (w ++ closing w) := by
  have hfeed : Text.newline = encode ['\n'] := rfl
  rw [endLine, Utf8.chars?_encode, closing, hfeed]
  dsimp only
  split
  · rw [List.append_nil]
  · rw [Utf8.encode_append]

/-- Lines with a text, to which the indentation of the first line does not belong. -/
def Renders (indent : Nat) (text : List Char) (ls : List Line) : Prop :=
  ∃ w rest, ls = ⟨indent, encode w⟩ :: rest ∧ w ≠ [] ∧
    encode text = encode (w ++ closing w) ++ rest.flatMap Line.render

namespace Renders

variable {indent : Nat} {text : List Char} {ls : List Line}

theorem single {w : List Char} (hw : w ≠ []) : Renders indent (w ++ closing w) [⟨indent, encode w⟩] :=
  ⟨w, [], rfl, hw, by simp⟩

theorem flatMap_render (h : Renders indent text ls) :
    ls.flatMap Line.render = encode (spaces indent ++ text) := by
  obtain ⟨w, rest, rfl, -, htext⟩ := h
  rw [List.flatMap_cons, Line.render, endLine_encode, List.append_assoc, ← htext, Utf8.encode_append]

theorem append {more : List Char} {ms : List Line} (h : Renders indent text ls)
    (hms : ms.flatMap Line.render = encode more) : Renders indent (text ++ more) (ls ++ ms) := by
  obtain ⟨w, rest, rfl, hw, htext⟩ := h
  refine ⟨w, rest ++ ms, rfl, hw, ?_⟩
  rw [Utf8.encode_append, htext, List.flatMap_append, hms, List.append_assoc]

theorem behind {k : Nat} (indent : Nat) (front : List Char) (h : Renders k text ls) :
    Renders indent (front ++ text) (Print.behind indent (encode front) ls) := by
  obtain ⟨w, rest, rfl, hw, htext⟩ := h
  refine ⟨front ++ w, rest, ?_, List.append_ne_nil_of_right_ne_nil _ hw, ?_⟩
  · rw [Print.behind, Utf8.encode_append]
  · rw [Scalar.closing_append hw, Utf8.encode_append, htext]
    simp only [Utf8.encode_append, List.append_assoc]

end Renders

/-- The lines of a node have the text of its layout. -/
def Written (n : Node) : Prop :=
  ∀ indent, ∃ ls, block indent n = .ok ls ∧ Renders indent (lines indent (ofNode false n)) ls

theorem blockItems_eq (indent : Nat) {items : List Node} (h : ∀ n ∈ items, Written n) :
    ∃ ls, blockItems indent items = .ok ls ∧
      ls.flatMap Line.render = encode (linesItems indent false (ofNodes false items)) ∧
      (items ≠ [] → Renders indent (linesItems indent true (ofNodes false items)) ls) := by
  induction items with
  | nil => exact ⟨[], rfl, rfl, fun hne => absurd rfl hne⟩
  | cons n ns ih =>
    obtain ⟨hn, hns⟩ := List.forall_mem_cons.1 h
    obtain ⟨ls, hls, hrenders⟩ := hn (indent + 2)
    obtain ⟨ms, hms, hrest, -⟩ := ih hns
    have hdash : utf8 "- " = encode ['-', ' '] := Utf8.utf8_eq_encode _
    have hall : Renders indent (linesItems indent true (ofNodes false (n :: ns)))
        (behind indent (utf8 "- ") ls ++ ms) := by
      have happend := (hrenders.behind indent ['-', ' ']).append hrest
      rw [hdash, ofNodes, linesItems, if_pos rfl]
      simpa using happend
    refine ⟨_, ?_, ?_, fun _ => hall⟩
    · rw [blockItems, hls, hms]
      rfl
    · rw [hall.flatMap_render, ofNodes, linesItems, linesItems, if_pos rfl, List.nil_append,
        if_neg Bool.false_ne_true]

theorem written_leaf {n : Node} (h : Regular n) (hblock : isBlock n = false)
    (hline : ∀ indent, line indent (ofNode false n) ≠ []) : Written n := by
  intro indent
  have hleaf := leaf_eq h hblock indent
  refine ⟨[⟨indent, encode (line indent (ofNode false n))⟩], ?_, ?_⟩
  · cases h with
    | scalar _ =>
      rw [block, hleaf]
      · rfl
      · simp
      · simp
    | sequence _ =>
      rw [block, hblock, if_neg Bool.false_ne_true, hleaf]
      rfl
    | mapping _ _ _ =>
      rw [block, hblock, if_neg Bool.false_ne_true, hleaf]
      rfl
  · rw [Layout.lines_leaf ((Layout.isBlock_ofNode h).trans hblock)]
    exact .single (hline indent)

/-- An entry in block form is written with its operand, which starts on a line of its own if it is
over several lines. -/
theorem written_entry {p q : Place} {tag ktag : Text} {key : List Char} {v : Node}
    (hplain : Style.choose true ktag key = .plain) (hv : Regular v) (hwritten : Written v) :
    Written (.mapping p tag false [(.scalar q ktag (encode key), v)]) := by
  intro indent
  obtain ⟨ls, hls, hrenders⟩ := hwritten (indent + 2)
  have hkey : inline indent (.scalar q ktag (encode key)) = .ok (encode key) := by
    rw [inline, scalar_encode, hplain, Style.write]
  have hblock : block indent (.mapping p tag false [(.scalar q ktag (encode key), v)]) =
      .ok (if isBlock v then ⟨indent, encode key ++ utf8 ":"⟩ :: ls ++ []
        else behind indent (encode key ++ utf8 ": ") ls ++ []) := by
    rw [block, if_pos (by rfl), blockEntries, hkey, hls]
    cases isBlock v <;> rfl
  refine ⟨_, hblock, ?_⟩
  rw [ofNode, Layout.charsOf_encode]
  show Renders indent (lines indent (.entry false key (ofNode false v))) _
  rw [lines, Layout.gap, Layout.isBlock_ofNode hv]
  cases hv : isBlock v with
  | true =>
    have hcolon : encode key ++ utf8 ":" = encode (key ++ [':']) := by
      rw [Utf8.encode_append]
      rfl
    have hclosing : closing (key ++ [':']) = ['\n'] := Layout.closing_concat (by decide) key
    have hfirst : Renders indent ((key ++ [':']) ++ closing (key ++ [':']))
        [⟨indent, encode (key ++ [':'])⟩] := .single (by simp)
    have hall := hfirst.append hrenders.flatMap_render
    rw [hclosing] at hall
    simpa [hcolon] using hall
  | false =>
    have hcolon : encode key ++ utf8 ": " = encode (key ++ [':', ' ']) := by
      rw [Utf8.encode_append]
      rfl
    have hall := hrenders.behind indent (key ++ [':', ' '])
    simpa [hcolon] using hall

/-- Over several lines, too, a node is written as its layout says. -/
theorem written {n : Node} (h : Regular n) : Written n := by
  induction h with
  | @scalar p tag cs hne =>
    refine written_leaf (.scalar hne) rfl fun indent => ?_
    rw [ofNode, Layout.charsOf_encode, line]
    exact List.length_pos_iff.1 (Layout.length_scalar_pos (Layout.holds_choose false tag hne) indent)
  | @sequence p tag flow items hitems ih =>
    cases hblock : isBlock (.sequence p tag flow items) with
    | false =>
      refine written_leaf (.sequence hitems) hblock fun indent => ?_
      rw [ofNode, line]
      simp
    | true =>
      intro indent
      obtain ⟨ls, hls, -, hrenders⟩ := blockItems_eq indent ih
      have hflow : flow = false ∧ items.isEmpty = false := by simpa [isBlock] using hblock
      refine ⟨ls, ?_, ?_⟩
      · rw [block, hblock, if_pos rfl, hls]
      · rw [ofNode, hflow.1, hflow.2]
        show Renders indent (lines indent (.list false (ofNodes false items))) ls
        rw [lines]
        exact hrenders (List.isEmpty_eq_false_iff.1 hflow.2)
  | @mapping p q tag ktag flow key v hkey hplain hv ih =>
    cases flow with
    | true =>
      refine written_leaf (.mapping hkey hplain hv) rfl fun indent => ?_
      rw [ofNode, line]
      simp
    | false => exact written_entry hplain hv ih

/-! ### Documents -/

/-- A document is written as the layout of its root says. -/
theorem document_eq {n : Node} (h : Regular n) :
    document n = .ok (encode (page (ofNode false n))) := by
  unfold page
  rw [Layout.isBlock_ofNode h]
  cases hblock : isBlock n with
  | true =>
    obtain ⟨ls, hls, hrenders⟩ := written h 0
    rw [document, root, hblock, if_pos rfl, hls]
    show Except.ok (ls.flatMap Line.render) = _
    rw [hrenders.flatMap_render]
    rfl
  | false =>
    rw [document, root, hblock, if_neg Bool.false_ne_true, leaf_eq h hblock]
    show Except.ok ([(⟨0, encode (line 2 (ofNode false n))⟩ : Line)].flatMap Line.render) = _
    rw [if_neg Bool.false_ne_true, Layout.lines_leaf ((Layout.isBlock_ofNode h).trans hblock),
      List.flatMap_singleton, Line.render, endLine_encode]
    rfl

theorem documents_eq {ns : List Node} (h : ∀ n ∈ ns, Regular n) :
    documents ns = .ok (ns.map fun n => encode (page (ofNode false n))) := by
  induction ns with
  | nil => rfl
  | cons n ns ih =>
    obtain ⟨hn, hns⟩ := List.forall_mem_cons.1 h
    rw [documents, document_eq hn, ih hns]
    rfl

theorem join_page (d : Layout) (ds : List Layout) :
    Text.join (utf8 "---\n") ((d :: ds).map fun d => encode (page d)) = encode (page d ++ pages ds) := by
  have hdashes : utf8 "---\n" = encode ['-', '-', '-', '\n'] := Utf8.utf8_eq_encode _
  induction ds generalizing d with
  | nil => simp [Text.join, pages]
  | cons e ds ih =>
    have hpages : pages (e :: ds) = ['-', '-', '-', '\n'] ++ (page e ++ pages ds) := by simp [pages]
    show encode (page d) ++ utf8 "---\n" ++
      Text.join (utf8 "---\n") ((e :: ds).map fun d => encode (page d)) = _
    rw [ih, hdashes, hpages]
    simp only [Utf8.encode_append, List.append_assoc]

/-- Documents are written one after the other, with dashes in front of all but the first. -/
theorem stream_eq {n : Node} {ns : List Node} (h : ∀ m ∈ n :: ns, Regular m) :
    (documents (n :: ns)).bind stream =
      .ok (encode (page (ofNode false n) ++ pages (ofNodes false ns))) := by
  rw [documents_eq h, Layout.ofNodes_eq_map, ← join_page, List.map_cons, List.map_cons, List.map_map]
  rfl

end Print

end TreeLang.Yaml
