import TreeLang.Proofs.Carries
import TreeLang.Proofs.Yaml.Cursor
import TreeLang.Yaml.Token.Stream

/-!
# Cursors in their source

However the scanner moves a cursor, the cursor stays in its source: what is at hand and in the
blocks after it is what follows the mark in the source (`Cursor.Within`), and the mark never goes
back. This holds until a failure is met; after that, nothing is said.
-/

set_option autoImplicit false

namespace TreeLang.Yaml

namespace Source

/-- The characters of a source, up to its damage. -/
def chars (s : Source) : List Char := s.blocks.flatten

end Source

namespace Cursor

/-- The cursor stands in a source: what follows its mark there is at hand or in the blocks. Past the
end there may be some characters zero, but only of a source that is not damaged. -/
structure Within (src : Source) (c : Cursor) : Prop where
  damage : c.damage = src.damage
  text : ∃ k, c.ready ++ c.blocks.flatten =
      (src.chars ++ List.replicate k endChar).drop c.mark.index ∧
    c.mark.index ≤ src.chars.length + k ∧ (k = 0 ∨ src.damage = none ∧ c.blocks = [])

/-- The bound stays. If no failure is on record in the end, none was before, the mark did not go
back, and the cursor is in the same source. -/
def Passes (c c' : Cursor) : Prop :=
  c'.bound = c.bound ∧ (c'.trouble = none →
    c.trouble = none ∧ c.mark.index ≤ c'.mark.index ∧ ∀ src, Within src c → Within src c')

instance : Std.Refl Passes := ⟨fun _ => ⟨rfl, fun h => ⟨h, le_rfl, fun _ hw => hw⟩⟩⟩

instance : IsTrans Cursor Passes where
  trans a b c hab hbc := by
    refine ⟨hbc.1.trans hab.1, fun h => ?_⟩
    obtain ⟨hb, hle, hw⟩ := hbc.2 h
    obtain ⟨ha, hle', hw'⟩ := hab.2 hb
    exact ⟨ha, hle'.trans hle, fun src hsrc => hw src (hw' src hsrc)⟩

theorem Within.ofSource (src : Source) : Within src (Cursor.ofSource src) where
  damage := rfl
  text := ⟨0, by simp [Cursor.ofSource, Source.chars], Nat.zero_le _, Or.inl rfl⟩

/-- Moving over characters that are at hand. -/
theorem Within.move {src : Source} {c : Cursor} (h : Within src c) {front rest : List Char}
    (hready : c.ready = front ++ rest) {c' : Cursor} (hready' : c'.ready = rest)
    (hblocks : c'.blocks = c.blocks) (hdamage : c'.damage = c.damage)
    (hindex : c'.mark.index = c.mark.index + front.length) : Within src c' := by
  obtain ⟨k, htext, hle, hk⟩ := h.text
  rw [hready, List.append_assoc] at htext
  have hlength := congrArg List.length htext
  have hdrop := congrArg (List.drop front.length) htext
  simp only [List.length_append, List.length_drop, List.length_replicate] at hlength
  rw [List.drop_left, List.drop_drop] at hdrop
  refine ⟨hdamage.trans h.damage, k, ?_, ?_, ?_⟩
  · rw [hready', hblocks, hindex, hdrop]
  · omega
  · rwa [hblocks]

/-- Taking blocks keeps the cursor in its source. -/
theorem Within.load {src : Source} {c c' : Cursor} {n : Nat} (h : Within src c)
    (hload : c.load n = (c', none)) : Within src c' := by
  obtain ⟨k, htext, hle, hk⟩ := h.text
  obtain ⟨hfill, hhand, -, hempty⟩ := fill_spec n c.blocks c.ready
  unfold Cursor.load at hload
  generalize fill n c.ready c.blocks = p at hfill hhand hempty hload
  obtain ⟨ready, blocks⟩ := p
  dsimp only at hfill hhand hempty hload
  rw [htext] at hfill
  have hk' : k = 0 ∨ src.damage = none ∧ blocks = [] := hk.imp_right fun h => ⟨h.1, hempty h.2⟩
  split at hload
  · cases hload
    exact h
  · split at hload
    · cases hload
      exact ⟨h.damage, k, hfill, hle, hk'⟩
    · rename_i hfew
      split at hload
      · rename_i hdamage
        -- The source has ended: all blocks are taken, and a character zero comes after them.
        have hblocks : blocks = [] := by
          refine hhand.resolve_left fun hlen => hfew ?_
          exact (reaches_iff n ready).2 hlen
        cases hload
        subst hblocks
        rw [List.flatten_nil, List.append_nil] at hfill
        refine ⟨h.damage, k + 1, ?_, by dsimp only; omega, Or.inr ⟨h.damage ▸ hdamage, rfl⟩⟩
        have hlength : c.mark.index ≤ (src.chars ++ List.replicate k endChar).length := by
          rwa [List.length_append, List.length_replicate]
        rw [List.replicate_succ', ← List.append_assoc, List.drop_append_of_le_length hlength, ← hfill]
        simp
      · cases hload

/-- A character at hand is the one of the source, unless it is past the end. -/
theorem Within.getElem? {src : Source} {c : Cursor} {ch : Char} {r : List Char} (h : Within src c)
    (hready : c.ready = ch :: r) :
    src.chars[c.mark.index]? = some ch ∨ ch = endChar ∧ src.damage = none := by
  obtain ⟨k, htext, -, hk⟩ := h.text
  rw [hready, List.cons_append] at htext
  have hget : (src.chars ++ List.replicate k endChar)[c.mark.index]? = some ch := by
    rw [← List.head?_drop, ← htext]
    rfl
  rcases Nat.lt_or_ge c.mark.index src.chars.length with hlt | hge
  · left
    rwa [List.getElem?_append_left hlt] at hget
  · right
    rw [List.getElem?_append_right hge] at hget
    have hmem : ch ∈ List.replicate k endChar := List.mem_of_getElem? hget
    obtain ⟨hne, rfl⟩ := List.mem_replicate.1 hmem
    exact ⟨rfl, (hk.resolve_left hne).1⟩

/-- The next character is the one of the source, or lies past the end or past what is at hand. -/
theorem Within.ahead_zero {src : Source} {c : Cursor} (h : Within src c) :
    src.chars[c.mark.index]? = some (c.ahead 0) ∨ c.ahead 0 = endChar := by
  cases hready : c.ready with
  | nil =>
    right
    rw [ahead, hready]
    rfl
  | cons ch r =>
    have hch : c.ahead 0 = ch := by
      rw [ahead, hready]
      rfl
    rw [hch]
    exact (h.getElem? hready).imp_right And.left

/-- What the source has `n` characters ahead is seen there, if it is at hand. -/
theorem Within.ahead_eq {src : Source} {c : Cursor} {n : Nat} {ch : Char} (h : Within src c)
    (hhand : n < c.ready.length ∨ c.blocks = []) (hget : src.chars[c.mark.index + n]? = some ch) :
    c.ahead n = ch := by
  obtain ⟨k, htext, -, -⟩ := h.text
  have hfound : (c.ready ++ c.blocks.flatten)[n]? = some ch := by
    rw [htext, List.getElem?_drop, List.getElem?_append_left (List.getElem?_eq_some_iff.1 hget).1]
    exact hget
  rw [ahead, List.getD_eq_getElem?_getD]
  rcases hhand with hlt | hblocks
  · rw [List.getElem?_append_left hlt] at hfound
    rw [hfound]
    rfl
  · rw [hblocks, List.flatten_nil, List.append_nil] at hfound
    rw [hfound]
    rfl

end Cursor

namespace Read

open Cursor (Passes)

/-! ## Single steps -/

instance carries_raise {α : Type} (e : Error) : Carries Passes (raise e : Read α) := by
  refine ⟨fun c => ⟨rfl, fun h => ?_⟩⟩
  cases h

instance carries_peek : Carries Passes peek := by
  unfold peek
  infer_instance

instance carries_peekAt (n : Nat) : Carries Passes (peekAt n) := by
  unfold peekAt
  infer_instance

instance carries_mark : Carries Passes mark := by
  unfold mark
  infer_instance

instance carries_bound : Carries Passes bound := by
  unfold bound
  infer_instance

instance carries_fail {α : Type} (fault : ScanFault) (context : Mark) :
    Carries Passes (fail fault context : Read α) := by
  unfold fail
  infer_instance

theorem load_fields (n : Nat) (c : Cursor) :
    (c.load n).1.trouble = c.trouble ∧ (c.load n).1.mark = c.mark ∧ (c.load n).1.bound = c.bound := by
  unfold Cursor.load
  split
  · exact ⟨rfl, rfl, rfl⟩
  · dsimp only
    split
    · exact ⟨rfl, rfl, rfl⟩
    · split <;> exact ⟨rfl, rfl, rfl⟩

theorem need_eq (n : Nat) (c : Cursor) : need n c = match c.load n with
    | (c', none) => .ok () c'
    | (c', some f) => raise (.read f c'.lastContext c'.lastPlace) c' := by
  simp only [need, bind, EStateM.bind, get, getThe, MonadStateOf.get, EStateM.get, set, EStateM.set]
  rcases c.load n with ⟨c', fault | f⟩ <;> rfl

instance carries_need (n : Nat) : Carries Passes (need n) := by
  refine ⟨fun c => ?_⟩
  obtain ⟨htrouble, hmark, hbound⟩ := load_fields n c
  unfold Leaves
  rw [need_eq]
  rcases hload : c.load n with ⟨c', fault | f⟩
  · rw [hload] at htrouble hmark hbound
    refine ⟨hbound, fun h => ⟨htrouble ▸ h, hmark ▸ le_rfl, fun src hsrc => hsrc.load hload⟩⟩
  · rw [hload] at hbound
    refine ⟨hbound, fun h => ?_⟩
    cases h

theorem leads_need_of_load {n : Nat} {c : Cursor} {Q : Cursor → Prop}
    (h : ∀ c', c.load n = (c', none) → Q c') : Leads True (need n) c fun _ => Q := by
  unfold Leads
  rw [need_eq]
  rcases heq : c.load n with ⟨c', fault | f⟩
  · exact h c' heq
  · trivial

/-- What is needed is there afterwards. -/
theorem leads_need_ready (n : Nat) (c : Cursor) :
    Leads True (need (n + 1)) c fun _ c' => c'.ready ≠ [] := by
  have hready : ∀ {cs : List Char}, Cursor.reaches (n + 1) cs = true → cs ≠ [] := by
    intro cs h
    exact List.ne_nil_of_length_pos (Nat.lt_of_lt_of_le (Nat.succ_pos n) ((Cursor.reaches_iff _ _).1 h))
  refine leads_need_of_load fun c' h => ?_
  unfold Cursor.load at h
  dsimp only at h
  split at h
  · rename_i hreach
    cases h
    exact hready hreach
  · split at h
    · rename_i hreach
      cases h
      exact hready hreach
    · split at h
      · cases h
        simp
      · cases h

/-- As many characters are at hand as are needed, or all that are left. -/
theorem leads_need_reach (n : Nat) (c : Cursor) :
    Leads True (need n) c fun _ c' => n ≤ c'.ready.length ∨ c'.blocks = [] := by
  refine leads_need_of_load fun c' h => ?_
  obtain ⟨-, hhand, -, -⟩ := Cursor.fill_spec n c.blocks c.ready
  unfold Cursor.load at h
  dsimp only at h
  split at h
  · rename_i hreach
    cases h
    exact Or.inl ((Cursor.reaches_iff _ _).1 hreach)
  · split at h
    · cases h
      exact hhand
    · rename_i hfew
      split at h
      · cases h
        exact Or.inr (hhand.resolve_left fun hlen => hfew ((Cursor.reaches_iff _ _).2 hlen))
      · cases h

instance carries_has (n : Nat) : Carries Passes (has n) := by
  refine ⟨fun c => ?_⟩
  have h := (carries_need n).leaves c
  unfold Leaves at h ⊢
  rw [has_eq]
  cases hr : need n c <;> rwa [hr] at h

theorem passes_move {c c' : Cursor} {front rest : List Char} (hready : c.ready = front ++ rest)
    (hready' : c'.ready = rest) (hblocks : c'.blocks = c.blocks) (hdamage : c'.damage = c.damage)
    (hindex : c'.mark.index = c.mark.index + front.length) (htrouble : c'.trouble = c.trouble)
    (hbound : c'.bound = c.bound) : Passes c c' := by
  refine ⟨hbound, fun h => ⟨htrouble ▸ h, by omega, fun src hsrc => ?_⟩⟩
  exact hsrc.move hready hready' hblocks hdamage hindex

instance carries_skip : Carries Passes skip := by
  refine carries_modify fun c => ?_
  unfold Cursor.skip
  split
  · exact Std.Refl.refl c
  · rename_i ch r hready
    exact passes_move (show c.ready = [ch] ++ r from hready) rfl rfl rfl rfl rfl rfl

instance carries_skipMany (n : Nat) : Carries Passes (skipMany n) := by
  induction n with
  | zero => exact carries_pure ()
  | succ n ih =>
    unfold skipMany
    exact .bind inferInstance fun _ => ih

instance carries_takeBreak : Carries Passes takeBreak := by
  have htake : Carries Passes (modifyGet Cursor.takeBreak : Read (List Char)) := by
    refine carries_modifyGet fun c => ?_
    unfold Cursor.takeBreak
    split
    · rename_i r hready
      exact passes_move (show c.ready = ['\r', '\n'] ++ r from hready) rfl rfl rfl rfl rfl rfl
    · rename_i ch r _ hready
      split
      · exact passes_move (show c.ready = [ch] ++ r from hready) rfl rfl rfl rfl rfl rfl
      · exact Std.Refl.refl c
    · exact Std.Refl.refl c
  unfold takeBreak
  infer_instance

instance carries_skipBreak : Carries Passes skipBreak := by
  unfold skipBreak
  infer_instance

instance carries_takeOnto (p : Char → Bool) (n : Nat) (taken : List Char) :
    Carries Passes (takeOnto p n taken) := by
  induction n generalizing taken with
  | zero => exact carries_pure taken
  | succ n ih =>
    unfold takeOnto
    refine .bind inferInstance fun _ => .bind inferInstance fun c => ?_
    split
    · exact .bind inferInstance fun _ => ih (c :: taken)
    · exact carries_pure taken

instance carries_takeWhile (p : Char → Bool) : Carries Passes (takeWhile p) := by
  unfold takeWhile
  infer_instance

instance carries_skipBlanks : Carries Passes skipBlanks := by
  unfold skipBlanks
  infer_instance

instance carries_skipToLineEnd : Carries Passes skipToLineEnd := by
  unfold skipToLineEnd
  infer_instance

end Read

open Read
open Cursor (Passes)

/-! ## Comments -/

namespace Comment

instance carries_follows (n ahead : Nat) : Carries Passes (follows n ahead) := by
  induction n generalizing ahead with
  | zero => exact carries_pure false
  | succ n ih =>
    unfold follows
    refine .bind inferInstance fun more => ?_
    split
    · refine .bind inferInstance fun c => ?_
      split
      · exact ih (ahead + 1)
      · exact carries_pure _
    · exact carries_pure false

instance carries_readLine (owner : Nat) : Carries Passes (readLine owner) := by
  unfold readLine
  infer_instance

instance carries_seen (ahead : Nat) : Carries Passes (seen ahead) := by
  unfold seen
  infer_instance

instance carries_seek (around : Surroundings) (n ahead : Nat) (s : Search) :
    Carries Passes (seek around n ahead s) := by
  induction n generalizing ahead s with
  | zero => exact carries_pure _
  | succ n ih =>
    unfold seek
    dsimp only
    refine .bind inferInstance fun more => ?_
    split
    · refine .bind inferInstance fun c => .bind inferInstance fun m => ?_
      split
      · exact ih _ _
      · split
        · split
          · exact ih _ _
          · exact carries_pure _
        · exact carries_pure _
    · exact carries_pure _

instance carries_moveTo (index fuel : Nat) : Carries Passes (moveTo index fuel) := by
  induction fuel with
  | zero => exact carries_pure ()
  | succ fuel ih =>
    unfold moveTo
    refine .bind inferInstance fun _ => .bind inferInstance fun m => ?_
    split
    · refine .bind inferInstance fun c => ?_
      split
      · exact .bind inferInstance fun _ => ih
      · exact .bind inferInstance fun _ => ih
    · exact carries_pure ()

instance carries_readGroups (around : Surroundings) (fuel ahead : Nat) (s : Search) :
    Carries Passes (readGroups around fuel ahead s) := by
  induction fuel generalizing ahead s with
  | zero => unfold readGroups; infer_instance
  | succ fuel ih =>
    unfold readGroups
    refine .bind inferInstance fun found => .bind inferInstance fun m => ?_
    split
    · refine .bind inferInstance fun _ => .bind inferInstance fun _ => ?_
      exact .bind inferInstance fun m => ih _ _
    · exact carries_pure _

instance carries_readAll (origin : Mark) (owner : Nat) (afterValue inFlow : Bool) (indent : Nat) :
    Carries Passes (readAll origin owner afterValue inFlow indent) := by
  unfold readAll
  infer_instance

end Comment

/-! ## Anchors, tags and directives -/

namespace Property

instance carries_readAnchor (kind : Text → TokenKind) : Carries Passes (readAnchor kind) := by
  unfold readAnchor
  infer_instance

instance carries_octet (start : Mark) : Carries Passes (octet start) := by
  have hmatch : ∀ (c : Char) (h l : Option Nat), Carries Passes (match c, h, l with
      | '%', some h, some l => (pure (h * 16 + l) : Read Nat)
      | _, _, _ => fail .noEscapedOctet start) := by
    intro c h l
    split <;> infer_instance
  unfold octet
  infer_instance

instance carries_readOctets (start : Mark) (n : Nat) : Carries Passes (readOctets start n) := by
  induction n with
  | zero => exact carries_pure []
  | succ n ih =>
    unfold readOctets
    refine .bind inferInstance fun b => .when inferInstance ?_
    exact .bind inferInstance fun _ => .bind ih inferInstance

instance carries_readEscaped (start : Mark) : Carries Passes (readEscaped start) := by
  unfold readEscaped
  refine .bind inferInstance fun b => ?_
  split <;> infer_instance

instance carries_readUriChars (start : Mark) (fuel : Nat) : Carries Passes (readUriChars start fuel) := by
  induction fuel with
  | zero => exact carries_pure []
  | succ fuel ih =>
    unfold readUriChars
    refine .bind inferInstance fun _ => .bind inferInstance fun c => ?_
    split
    · exact .bind inferInstance fun escaped => .bind ih inferInstance
    · split
      · exact .bind inferInstance fun _ => .bind ih inferInstance
      · exact carries_pure []

instance carries_readUri (start : Mark) (front : Text) : Carries Passes (readUri start front) := by
  unfold readUri
  infer_instance

instance carries_readHandle (inDirective : Bool) (start : Mark) :
    Carries Passes (readHandle inDirective start) := by
  unfold readHandle
  dsimp only
  refine .bind inferInstance fun _ => .bind inferInstance fun c => .when inferInstance ?_
  refine .bind inferInstance fun _ => .bind inferInstance fun word => .bind inferInstance fun c => ?_
  split <;> infer_instance

instance carries_readTagParts (start : Mark) : Carries Passes (readTagParts start) := by
  unfold readTagParts
  dsimp only
  refine .bind inferInstance fun _ => .bind inferInstance fun c => ?_
  split
  · refine .bind inferInstance fun _ => .bind inferInstance fun _ => ?_
    exact .bind inferInstance fun suffix => .bind inferInstance fun c => .when inferInstance inferInstance
  · refine .bind inferInstance fun handle => ?_
    split <;> infer_instance

instance carries_readTag : Carries Passes (readTag) := by
  unfold readTag
  infer_instance

instance carries_readVersionNumber (start : Mark) : Carries Passes (readVersionNumber start) := by
  unfold readVersionNumber
  dsimp only
  infer_instance

instance carries_readVersion (start : Mark) : Carries Passes (readVersion start) := by
  unfold readVersion
  dsimp only
  infer_instance

instance carries_readTagDirective (start : Mark) : Carries Passes (readTagDirective start) := by
  unfold readTagDirective
  dsimp only
  refine .bind inferInstance fun _ => .bind inferInstance fun handle => ?_
  refine .bind inferInstance fun _ => .bind inferInstance fun c => .when inferInstance ?_
  refine .bind inferInstance fun _ => .bind inferInstance fun uri => ?_
  exact .bind inferInstance fun _ => .bind inferInstance fun c => .when inferInstance inferInstance

/-- The rest of the line after a directive, which is the same for every directive. -/
theorem carries_directiveEnd (start : Mark) (kind : TokenKind) : Carries Passes (do
    let stop ← mark
    skipBlanks
    if (← peek) == '#' then skipToLineEnd
    if !isLineEnd (← peek) then fail .noCommentOrBreak start
    skipBreak
    return (⟨kind, start, stop⟩ : Token)) := by
  dsimp only
  refine .bind inferInstance fun stop => .bind inferInstance fun _ => ?_
  refine .bind inferInstance fun c => .when inferInstance ?_
  exact .bind inferInstance fun c => .when inferInstance inferInstance

instance carries_readDirective : Carries Passes (readDirective) := by
  have hrest := carries_directiveEnd
  unfold readDirective
  dsimp only at hrest ⊢
  refine .bind inferInstance fun start => .bind inferInstance fun _ => ?_
  refine .bind inferInstance fun name => .when inferInstance ?_
  refine .bind inferInstance fun c => .when inferInstance ?_
  split
  · exact .bind inferInstance fun kind => hrest start kind
  · split
    · exact .bind inferInstance fun kind => hrest start kind
    · exact .bind inferInstance fun kind => hrest start kind

end Property

/-! ## Scalars -/

namespace Scalar

instance carries_readGap (start : Mark) (margin : Option Int) (fuel : Nat) (g : Gap) :
    Carries Passes (readGap start margin fuel g) := by
  induction fuel generalizing g with
  | zero => exact carries_pure g
  | succ fuel ih =>
    unfold readGap
    refine .bind inferInstance fun c => ?_
    split
    · refine .bind inferInstance fun m => .when inferInstance ?_
      exact .bind inferInstance fun _ => .bind inferInstance fun _ => ih _
    · split
      · exact .bind inferInstance fun b => .bind inferInstance fun _ => ih _
      · exact carries_pure g

instance carries_readEscape (start : Mark) : Carries Passes (readEscape start) := by
  unfold readEscape
  refine .bind inferInstance fun c => ?_
  split
  · infer_instance
  · infer_instance
  · refine .bind inferInstance fun _ => .bind inferInstance fun _ => ?_
    refine .bind inferInstance fun _ => .bind inferInstance fun c => ?_
    split <;> infer_instance

instance carries_readQuotedRun (start : Mark) (quote : Char) (fuel : Nat) (acc : List Char) :
    Carries Passes (readQuotedRun start quote fuel acc) := by
  induction fuel generalizing acc with
  | zero => exact carries_pure _
  | succ fuel ih =>
    unfold readQuotedRun
    refine .bind inferInstance fun c => ?_
    split
    · exact carries_pure _
    · split
      -- a quote: two of them stand for one
      · refine .bind inferInstance fun d => ?_
        split <;> infer_instance
      · split
        -- a backslash, in front of a line break or of an escape
        · refine .bind inferInstance fun d => ?_
          split <;> infer_instance
        · exact .bind inferInstance fun _ => .bind inferInstance fun _ => ih _

instance carries_readQuotedContent (start : Mark) (quote : Char) (fuel : Nat) (acc : List Char) :
    Carries Passes (readQuotedContent start quote fuel acc) := by
  induction fuel generalizing acc with
  | zero => exact carries_throw _
  | succ fuel ih =>
    unfold readQuotedContent
    dsimp only
    refine .bind inferInstance fun _ => .bind inferInstance fun c => .when inferInstance ?_
    refine .bind inferInstance fun _ => .when inferInstance ?_
    refine .bind inferInstance fun n => .bind inferInstance fun run => ?_
    refine .bind inferInstance fun _ => .bind inferInstance fun c => ?_
    split
    · exact carries_pure _
    · exact .bind inferInstance fun n => .bind inferInstance fun gap => ih _

instance carries_readQuoted (quote : Char) : Carries Passes (readQuoted quote) := by
  unfold readQuoted
  infer_instance

instance carries_readPlainRun (inFlow : Bool) (fuel : Nat) (s : PlainState) :
    Carries Passes (readPlainRun inFlow fuel s) := by
  induction fuel generalizing s with
  | zero => exact carries_pure s
  | succ fuel ih =>
    unfold readPlainRun
    refine .bind inferInstance fun c => .bind inferInstance fun d => ?_
    split
    · exact carries_pure s
    · refine .bind inferInstance fun _ => .bind inferInstance fun stop => ?_
      exact .bind inferInstance fun _ => ih _

instance carries_readPlainLines (start : Mark) (inFlow : Bool) (margin : Int) (fuel : Nat) (s : PlainState) :
    Carries Passes (readPlainLines start inFlow margin fuel s) := by
  induction fuel generalizing s with
  | zero => exact carries_pure s
  | succ fuel ih =>
    unfold readPlainLines
    refine .bind inferInstance fun _ => .bind inferInstance fun c => .bind inferInstance fun d => ?_
    split
    · exact carries_pure s
    · refine .bind inferInstance fun n => .bind inferInstance fun s => .bind inferInstance fun c => ?_
      split
      · exact carries_pure s
      · refine .bind inferInstance fun _ => .bind inferInstance fun n => ?_
        refine .bind inferInstance fun gap => .bind inferInstance fun m => ?_
        split
        · exact carries_pure _
        · exact ih _

instance carries_readPlain (inFlow : Bool) (margin : Int) : Carries Passes (readPlain inFlow margin) := by
  unfold readPlain
  infer_instance

instance carries_readIncrement (start : Mark) : Carries Passes (readIncrement start) := by
  unfold readIncrement
  infer_instance

instance carries_readChomping : Carries Passes readChomping := by
  unfold readChomping
  refine .bind inferInstance fun _ => .bind inferInstance fun c => ?_
  split <;> infer_instance

instance carries_readBlockHeader (start : Mark) : Carries Passes (readBlockHeader start) := by
  unfold readBlockHeader
  refine .bind (.bind inferInstance fun k => ?_) fun ⟨chomping, increment⟩ => ?_
  · split
    · infer_instance
    · refine .bind inferInstance fun n => ?_
      split <;> infer_instance
  · dsimp only
    refine .bind inferInstance fun _ => .bind inferInstance fun c => ?_
    split <;> infer_instance

instance carries_readBlockBreaks (start : Mark) (indent fuel : Nat) (breaks : List Char) (widest : Nat)
    (stop : Mark) : Carries Passes (readBlockBreaks start indent fuel breaks widest stop) := by
  induction fuel generalizing breaks widest stop with
  | zero => exact carries_pure _
  | succ fuel ih =>
    unfold readBlockBreaks
    dsimp only
    refine .bind inferInstance fun _ => .bind inferInstance fun c => .bind inferInstance fun _ => ?_
    refine .bind inferInstance fun _ => .bind inferInstance fun m => .bind inferInstance fun d => ?_
    refine .when inferInstance (.bind inferInstance fun d => ?_)
    split
    · exact .bind inferInstance fun b => .bind inferInstance fun stop => ih _ _ _
    · exact carries_pure _

instance carries_readBlockLines (start : Mark) (literal : Bool) (indent fuel : Nat) (s : BlockState) :
    Carries Passes (readBlockLines start literal indent fuel s) := by
  induction fuel generalizing s with
  | zero => exact carries_pure s
  | succ fuel ih =>
    unfold readBlockLines
    refine .bind inferInstance fun c => .bind inferInstance fun m => ?_
    split
    · refine .bind inferInstance fun line => .bind inferInstance fun first => ?_
      refine .bind inferInstance fun n => .bind inferInstance fun m => ?_
      exact .bind inferInstance fun breaks => ih _
    · exact carries_pure s

instance carries_readBlock (literal : Bool) (outer : Int) : Carries Passes (readBlock literal outer) := by
  unfold readBlock
  dsimp only
  refine .bind inferInstance fun start => .bind inferInstance fun _ => ?_
  refine .bind inferInstance fun header => .bind inferInstance fun n => .bind inferInstance fun m => ?_
  refine .bind inferInstance fun breaks => .bind inferInstance fun _ => ?_
  exact .bind inferInstance fun n => .bind inferInstance fun s => carries_pure _

end Scalar

end TreeLang.Yaml
