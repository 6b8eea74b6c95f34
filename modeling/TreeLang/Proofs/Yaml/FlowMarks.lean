import TreeLang.Proofs.Yaml.Passage
import TreeLang.Proofs.Yaml.TokenRules

/-!
# Brackets that are marks of the notation

The scanner reads a bracket as the start or the end of a flow collection, or as a part of something
else: a scalar, a comment, a tag. The tokens of the first sort are noted here, together with the
ends of the stream. Every step of the scanner appends noted tokens to the ones in its queue
(`TokenStream.Reads`): each of them starts at a character of the source that is its bracket, one
after the other, and the stream only ends where the source does.
-/

set_option autoImplicit false

namespace TreeLang.Yaml

/-! ## Noted tokens -/

namespace TokenKind

/-- The bracket that a token of the kind is. -/
def bracket? : TokenKind → Option Char
  | .flowSequenceStart => some '['
  | .flowSequenceEnd => some ']'
  | .flowMappingStart => some '\x7b'
  | .flowMappingEnd => some '\x7d'
  | _ => none

/-- Whether tokens of the kind are brackets or end the stream. -/
def isNoted (k : TokenKind) : Bool := k.bracket?.isSome || k == .streamEnd

end TokenKind

/-- The noted ones among tokens. -/
def noted (ts : List Token) : List Token := ts.filter (·.kind.isNoted)

theorem noted_append (ts us : List Token) : noted (ts ++ us) = noted ts ++ noted us :=
  List.filter_append ..

/-- The brackets of `ts` stand in a source, from the character `lo` on and in front of `hi`, each
after the ones before it; and if `ts` has an end of the stream the source is not damaged. -/
structure Placed (src : Source) (lo hi : Nat) (ts : List Token) : Prop where
  ordered : ts.Pairwise fun t u => t.kind.bracket?.isSome → t.start.index < u.start.index
  low : ∀ t ∈ ts, lo ≤ t.start.index
  high : ∀ t ∈ ts, t.kind.bracket?.isSome → t.start.index < hi
  written : ∀ t ∈ ts, ∀ c, t.kind.bracket? = some c → src.chars[t.start.index]? = some c
  whole : ∀ t ∈ ts, t.kind = .streamEnd → src.damage = none

namespace Placed

variable {src : Source} {lo mid hi : Nat} {ts us : List Token}

theorem nil : Placed src lo hi [] := ⟨.nil, by simp, by simp, by simp, by simp⟩

theorem singleton {t : Token} (hlow : lo ≤ t.start.index)
    (hhigh : t.kind.bracket?.isSome → t.start.index < hi)
    (hwritten : ∀ c, t.kind.bracket? = some c → src.chars[t.start.index]? = some c)
    (hwhole : t.kind = .streamEnd → src.damage = none) : Placed src lo hi [t] where
  ordered := List.pairwise_singleton ..
  low := List.forall_mem_singleton.2 hlow
  high := List.forall_mem_singleton.2 hhigh
  written := List.forall_mem_singleton.2 hwritten
  whole := List.forall_mem_singleton.2 hwhole

theorem append (hts : Placed src lo mid ts) (hus : Placed src mid hi us) (hlo : lo ≤ mid)
    (hhi : mid ≤ hi) : Placed src lo hi (ts ++ us) where
  ordered := by
    refine List.pairwise_append.2 ⟨hts.ordered, hus.ordered, fun t ht u hu hb => ?_⟩
    exact (hts.high t ht hb).trans_le (hus.low u hu)
  low t ht := by
    rcases List.mem_append.1 ht with ht | ht
    · exact hts.low t ht
    · exact hlo.trans (hus.low t ht)
  high t ht hb := by
    rcases List.mem_append.1 ht with ht | ht
    · exact (hts.high t ht hb).trans_le hhi
    · exact hus.high t ht hb
  written t ht := by
    rcases List.mem_append.1 ht with ht | ht
    · exact hts.written t ht
    · exact hus.written t ht
  whole t ht := by
    rcases List.mem_append.1 ht with ht | ht
    · exact hts.whole t ht
    · exact hus.whole t ht

theorem of_append (h : Placed src lo hi (noted (ts ++ us))) : Placed src lo hi (noted ts) := by
  rw [noted_append] at h
  exact {
    ordered := (List.pairwise_append.1 h.ordered).1
    low := fun t ht => h.low t (List.mem_append_left _ ht)
    high := fun t ht => h.high t (List.mem_append_left _ ht)
    written := fun t ht => h.written t (List.mem_append_left _ ht)
    whole := fun t ht => h.whole t (List.mem_append_left _ ht) }

end Placed

namespace TokenStream

open Cursor (Passes Within)

/-! ## What the scanner does -/

/-- The cursor passes on, and no noted token is read. -/
def Quiet (s s' : TokenStream) : Prop := Passes s.cursor s'.cursor ∧ noted s'.queue = noted s.queue

instance : Std.Refl Quiet := ⟨fun s => ⟨Std.Refl.refl s.cursor, rfl⟩⟩

instance : IsTrans TokenStream Quiet :=
  ⟨fun _ _ _ h h' => ⟨IsTrans.trans _ _ _ h.1 h'.1, h'.2.trans h.2⟩⟩

/-- No noted token is read, and the cursor stays where it is, unless a failure is met. -/
def Still (s s' : TokenStream) : Prop :=
  Quiet s s' ∧ (s'.cursor.trouble = none → s'.cursor = s.cursor)

instance : Std.Refl Still := ⟨fun s => ⟨Std.Refl.refl s, fun _ => rfl⟩⟩

instance : IsTrans TokenStream Still where
  trans _ _ _ h h' := by
    refine ⟨IsTrans.trans _ _ _ h.1 h'.1, fun hc => ?_⟩
    exact (h'.2 hc).trans (h.2 (h'.1.1.2 hc).1)

theorem still_of_eq {s s' : TokenStream} (hcursor : s'.cursor = s.cursor)
    (hqueue : noted s'.queue = noted s.queue) : Still s s' := by
  refine ⟨⟨?_, hqueue⟩, fun _ => hcursor⟩
  rw [hcursor]
  exact Std.Refl.refl s.cursor

instance (priority := low) carries_quiet {α : Type} (x : Scan α) [h : Carries Still x] :
    Carries Quiet x := ⟨fun s => (h.leaves s).1⟩

/-- The tokens that are read and the levels that are entered stay. -/
structure Keeps (s s' : TokenStream) : Prop where
  queue : s'.queue = s.queue
  flowLevel : s'.flowLevel = s.flowLevel
  indent : s'.indent = s.indent

/-- The cursor passes on, but no token is read and no level is entered. -/
def Roams (s s' : TokenStream) : Prop := Passes s.cursor s'.cursor ∧ Keeps s s'

instance : Std.Refl Roams := ⟨fun s => ⟨Std.Refl.refl s.cursor, rfl, rfl, rfl⟩⟩

instance : IsTrans TokenStream Roams where
  trans _ _ _ h h' := ⟨IsTrans.trans _ _ _ h.1 h'.1, h'.2.queue.trans h.2.queue,
    h'.2.flowLevel.trans h.2.flowLevel, h'.2.indent.trans h.2.indent⟩

instance (priority := low) carries_quiet_of_roams {α : Type} (x : Scan α) [h : Carries Roams x] :
    Carries Quiet x := ⟨fun s => ⟨(h.leaves s).1, congrArg noted (h.leaves s).2.queue⟩⟩

/-- No token is read, no level is entered, and the cursor stays where it is, unless a failure is
met. -/
def Rests (s s' : TokenStream) : Prop :=
  Roams s s' ∧ (s'.cursor.trouble = none → s'.cursor = s.cursor)

instance : Std.Refl Rests := ⟨fun s => ⟨Std.Refl.refl s, fun _ => rfl⟩⟩

instance : IsTrans TokenStream Rests where
  trans _ _ _ h h' := by
    refine ⟨IsTrans.trans _ _ _ h.1 h'.1, fun hc => ?_⟩
    exact (h'.2 hc).trans (h.2 (h'.1.1.2 hc).1)

theorem rests_of_eq {s s' : TokenStream} (hcursor : s'.cursor = s.cursor) (hkeeps : Keeps s s') :
    Rests s s' := by
  refine ⟨⟨?_, hkeeps⟩, fun _ => hcursor⟩
  rw [hcursor]
  exact Std.Refl.refl s.cursor

instance (priority := low) carries_still_of_rests {α : Type} (x : Scan α) [h : Carries Rests x] :
    Carries Still x :=
  ⟨fun s => ⟨⟨(h.leaves s).1.1, congrArg noted (h.leaves s).1.2.queue⟩, (h.leaves s).2⟩⟩

instance (priority := low) carries_roams_of_rests {α : Type} (x : Scan α) [h : Carries Rests x] :
    Carries Roams x := ⟨fun s => (h.leaves s).1⟩

/-- The cursor passes on, and the noted tokens that are read stand in the source that it has
passed. -/
def Reads (s s' : TokenStream) : Prop :=
  Passes s.cursor s'.cursor ∧ (s'.cursor.trouble = none → ∀ src, Within src s.cursor →
    endChar ∉ src.chars → ∃ new, noted s'.queue = noted s.queue ++ new ∧
      Placed src s.cursor.mark.index s'.cursor.mark.index new)

theorem Quiet.reads {s s' : TokenStream} (h : Quiet s s') : Reads s s' :=
  ⟨h.1, fun _ _ _ _ => ⟨[], by rw [h.2, List.append_nil], .nil⟩⟩

instance : Std.Refl Reads := ⟨fun s => Quiet.reads (Std.Refl.refl s)⟩

instance : IsTrans TokenStream Reads where
  trans a b c hab hbc := by
    refine ⟨IsTrans.trans _ _ _ hab.1 hbc.1, fun hc src hsrc hno => ?_⟩
    obtain ⟨hb, hle, hwithin⟩ := hbc.1.2 hc
    obtain ⟨-, hle', hwithin'⟩ := hab.1.2 hb
    obtain ⟨new, heq, hnew⟩ := hab.2 hb src hsrc hno
    obtain ⟨more, heq', hmore⟩ := hbc.2 hc src (hwithin' src hsrc) hno
    refine ⟨new ++ more, ?_, hnew.append hmore hle' hle⟩
    rw [heq', heq, List.append_assoc]

instance (priority := low) carries_reads {α : Type} (x : Scan α) [h : Carries Quiet x] :
    Carries Reads x := ⟨fun s => (h.leaves s).reads⟩

/-! ## Single steps -/

instance carries_reading {α : Type} (r : Read α) [h : Carries Passes r] : Carries Roams (reading r) := by
  refine ⟨fun s => ?_⟩
  have hr := h.leaves s.cursor
  unfold Leaves at hr ⊢
  unfold reading
  cases heq : r s.cursor with
  | ok a c =>
    rw [heq] at hr
    exact ⟨hr, rfl, rfl, rfl⟩
  | error e c =>
    rw [heq] at hr
    exact ⟨hr, rfl, rfl, rfl⟩

instance carries_mark : Carries Rests mark := by
  unfold mark
  infer_instance

instance carries_fail {α : Type} (fault : ScanFault) (context : Mark) :
    Carries Rests (fail fault context : Scan α) := by
  have hroams : Carries Roams (fail fault context : Scan α) := by
    unfold fail
    infer_instance
  refine ⟨fun s => ⟨hroams.leaves s, fun h => ?_⟩⟩
  cases h

theorem carries_push {t : Token} (ht : t.kind.isNoted = false) : Carries Still (push t) := by
  refine carries_modify fun s => still_of_eq rfl ?_
  have hnone : noted [t] = [] := List.filter_eq_nil_iff.2 (by simp [ht])
  rw [noted_append, hnone, List.append_nil]

theorem noted_insertIdx {t : Token} (ht : t.kind.isNoted = false) (ts : List Token) (n : Nat) :
    noted (ts.insertIdx n t) = noted ts := by
  induction ts generalizing n with
  | nil => cases n <;> simp [noted, ht]
  | cons u us ih =>
    cases n with
    | zero => simp [noted, ht]
    | succ n =>
      have h := ih n
      simp only [noted, List.insertIdx_succ_cons, List.filter_cons] at h ⊢
      split <;> simp [h]

theorem carries_insertAt {t : Token} (ht : t.kind.isNoted = false) (number : Nat) :
    Carries Still (insertAt number t) := by
  refine carries_modify fun s => ?_
  split
  · exact (carries_push ht).leaves s
  · exact still_of_eq rfl (noted_insertIdx ht s.queue _)

instance carries_keep (cs : List Comment) : Carries Rests (keep cs) := by
  refine carries_modify fun s => ?_
  split
  · exact Std.Refl.refl s
  · exact rests_of_eq rfl ⟨rfl, rfl, rfl⟩

instance carries_allowKey (b : Bool) : Carries Rests (allowKey b) :=
  carries_modify fun _ => rests_of_eq rfl ⟨rfl, rfl, rfl⟩

theorem carries_readMark {kind : TokenKind} (hkind : kind.isNoted = false) (width : Nat) :
    Carries Quiet (readMark kind width) := by
  have hpush : ∀ start stop : Mark, Carries Still (push ⟨kind, start, stop⟩) :=
    fun _ _ => carries_push hkind
  unfold readMark
  infer_instance

/-! ## Pending keys and levels -/

instance carries_keyStands (level : Nat) : Carries Rests (keyStands level) := by
  unfold keyStands
  refine carries_get_bind fun s => ?_
  dsimp only
  split
  · exact leaves_of_carries _
  · split
    · exact leaves_of_carries _
    · split
      · split
        · exact leaves_of_carries (fail _ _)
        · exact leaves_set_bind (rests_of_eq rfl ⟨rfl, rfl, rfl⟩) (leaves_of_carries _)
      · exact leaves_of_carries _

instance carries_dropKey : Carries Rests dropKey := by
  unfold dropKey
  refine carries_get_bind fun s => ?_
  dsimp only
  split
  · split
    · split
      · exact leaves_of_carries (fail _ _)
      · exact leaves_set (rests_of_eq rfl ⟨rfl, rfl, rfl⟩)
    · exact leaves_of_carries _
  · exact leaves_of_carries _

instance carries_saveKey : Carries Rests saveKey := by
  have hsave : Carries Rests (do
      let s ← get
      let k : PendingKey :=
        { possible := true
          required := s.flowLevel == 0 && s.indent == (s.cursor.mark.column : Int)
          number := s.nextNumber
          mark := s.cursor.mark }
      set { s with
        keys := k :: s.keys.drop 1
        watched := (k.number, s.flowLevel) :: s.watched.filter (·.1 != k.number) } : Scan Unit) :=
    carries_get_bind fun _ => leaves_set (rests_of_eq rfl ⟨rfl, rfl, rfl⟩)
  unfold saveKey
  infer_instance

instance carries_enterFlow : Carries Still enterFlow := by
  unfold enterFlow
  exact carries_get_bind fun s => leaves_set_bind (still_of_eq rfl rfl) (leaves_of_carries _)

instance carries_leaveFlow : Carries Still leaveFlow := by
  refine carries_modify fun s => ?_
  split
  · exact still_of_eq rfl rfl
  · exact Std.Refl.refl s

theorem carries_enterBlock {kind : TokenKind} (hkind : kind.isNoted = false) (column : Nat)
    (number : Option Nat) (m : Mark) : Carries Still (enterBlock column number kind m) := by
  have hinsert : ∀ n, Carries Still (insertAt n ⟨kind, m, m⟩) := carries_insertAt hkind
  have hpush : Carries Still (push ⟨kind, m, m⟩) := carries_push hkind
  unfold enterBlock
  refine carries_get_bind fun s => ?_
  dsimp only
  split
  · refine leaves_set_bind (still_of_eq rfl rfl) ?_
    cases number <;> exact leaves_of_carries _
  · exact leaves_of_carries _

theorem noted_blockEnds (column : Int) (comments : List Comment) (m : Mark) (indent : Int)
    (indents : List Int) : noted (blockEnds column comments m indent indents).1 = [] := by
  induction indents generalizing m indent with
  | nil => rfl
  | cons outer rest ih =>
    unfold blockEnds
    split
    · exact ih _ _
    · rfl

instance carries_leaveBlocks (column : Int) (m : Mark) : Carries Still (leaveBlocks column m) := by
  refine carries_modify fun s => ?_
  split
  · refine still_of_eq rfl ?_
    rw [noted_append, noted_blockEnds, List.append_nil]
  · exact Std.Refl.refl s

/-! ## Tokens that are not noted -/

instance carries_leaveDocument : Carries Still leaveDocument := by
  unfold leaveDocument
  infer_instance

instance carries_readStreamStart : Carries Still readStreamStart := by
  have hstart : Carries Still (modify fun s : TokenStream =>
      { s with started := true, keyAllowed := true, keys := [{}] } : Scan PUnit) :=
    carries_modify fun _ => still_of_eq rfl rfl
  have hpush : ∀ m : Mark, Carries Still (push ⟨.streamStart, m, m⟩) := fun _ => carries_push rfl
  unfold readStreamStart
  infer_instance

instance carries_readFlowEntry : Carries Quiet readFlowEntry := by
  have hmark := carries_readMark (show TokenKind.flowEntry.isNoted = false from rfl) 1
  unfold readFlowEntry
  infer_instance

instance carries_readBlockEntry : Carries Quiet readBlockEntry := by
  have hmark := carries_readMark (show TokenKind.blockEntry.isNoted = false from rfl) 1
  have henter := carries_enterBlock (show TokenKind.blockSequenceStart.isNoted = false from rfl)
  unfold readBlockEntry
  infer_instance

instance carries_readKey : Carries Quiet readKey := by
  have hmark := carries_readMark (show TokenKind.key.isNoted = false from rfl) 1
  have henter := carries_enterBlock (show TokenKind.blockMappingStart.isNoted = false from rfl)
  unfold readKey
  infer_instance

instance carries_readValue : Carries Quiet readValue := by
  have hmark := carries_readMark (show TokenKind.value.isNoted = false from rfl) 1
  have henter := carries_enterBlock (show TokenKind.blockMappingStart.isNoted = false from rfl)
  have hinsert : ∀ (n : Nat) (m m' : Mark), Carries Still (insertAt n ⟨.key, m, m'⟩) :=
    fun n _ _ => carries_insertAt rfl n
  have hsettle : ∀ k : PendingKey, Carries Still (modify fun s : TokenStream =>
      { s with
        keys := { k with possible := false } :: s.keys.drop 1
        watched := s.watched.filter (·.1 != k.number)
        keyAllowed := false } : Scan PUnit) :=
    fun _ => carries_modify fun _ => still_of_eq rfl rfl
  unfold readValue
  dsimp only
  refine .bind inferInstance fun s => .bind inferInstance fun stands => ?_
  split
  · infer_instance
  · refine .bind inferInstance fun s => ?_
    split <;> infer_instance

theorem carries_readDocumentMark {kind : TokenKind} (hkind : kind.isNoted = false) :
    Carries Quiet (readDocumentMark kind) := by
  have hmark := carries_readMark hkind 3
  unfold readDocumentMark
  infer_instance

/-- The token is not a noted one. -/
abbrev Unnoted (t : Token) : Prop := t.kind.isNoted = false

instance answers_fail {α : Type} {P : α → Prop} (fault : ScanFault) (context : Mark) :
    Answers P (Read.fail fault context : Read α) := ⟨fun _ => trivial⟩

theorem answers_token {kind : TokenKind} (h : kind.isNoted = false) (start stop : Mark) :
    Answers Unnoted (pure ⟨kind, start, stop⟩ : Read Token) := answers_pure h

theorem answers_readAnchor {kind : Text → TokenKind} (h : ∀ name, (kind name).isNoted = false) :
    Answers Unnoted (Property.readAnchor kind) := by
  have htoken := fun name => answers_token (h name)
  unfold Property.readAnchor
  infer_instance

instance answers_readTag : Answers Unnoted Property.readTag := by
  have htoken := fun handle suffix =>
    answers_token (show (TokenKind.tag handle suffix).isNoted = false from rfl)
  unfold Property.readTag
  infer_instance

instance answers_readQuoted (quote : Char) : Answers Unnoted (Scalar.readQuoted quote) := by
  have htoken := fun value =>
    answers_token (show (TokenKind.scalar value false).isNoted = false from rfl)
  unfold Scalar.readQuoted
  infer_instance

instance answers_readPlain (inFlow : Bool) (margin : Int) :
    Answers (fun p => Unnoted p.1) (Scalar.readPlain inFlow margin) := by
  have htoken : ∀ (value : Text) (start stop : Mark) (broken : Bool), Answers (fun p => Unnoted p.1)
      (pure (⟨.scalar value true, start, stop⟩, broken) : Read (Token × Bool)) :=
    fun _ _ _ _ => answers_pure rfl
  unfold Scalar.readPlain
  infer_instance

instance answers_readBlock (literal : Bool) (outer : Int) :
    Answers (fun p => Unnoted p.1) (Scalar.readBlock literal outer) := by
  have htoken : ∀ (value : Text) (start stop : Mark) (comment : Option Comment),
      Answers (fun p => Unnoted p.1)
        (pure (⟨.scalar value false, start, stop⟩, comment) : Read (Token × Option Comment)) :=
    fun _ _ _ _ => answers_pure rfl
  unfold Scalar.readBlock
  infer_instance

instance answers_readDirective : Answers Unnoted Property.readDirective := by
  have hkind : ∀ {kind : TokenKind}, kind.isNoted = false →
      Answers (·.isNoted = false) (pure kind : Read TokenKind) := fun h => answers_pure h
  have hversion : ∀ start, Answers (·.isNoted = false) (Property.readVersion start) := by
    intro start
    have hpure := fun major minor =>
      hkind (show (TokenKind.versionDirective major minor).isNoted = false from rfl)
    unfold Property.readVersion
    infer_instance
  have htag : ∀ start, Answers (·.isNoted = false) (Property.readTagDirective start) := by
    intro start
    have hpure := fun handle uri =>
      hkind (show (TokenKind.tagDirective handle uri).isNoted = false from rfl)
    unfold Property.readTagDirective
    dsimp only
    exact (answers_true _).bind fun _ _ => (answers_true _).bind fun handle _ => inferInstance
  -- what both directives have behind their words
  have hrest : ∀ (start : Mark) (x : Read TokenKind) [Answers (·.isNoted = false) x],
      Answers Unnoted (do
        let kind ← x
        let stop ← Read.mark
        Read.skipBlanks
        if (← Read.peek) == '#' then Read.skipToLineEnd
        if !isLineEnd (← Read.peek) then Read.fail .noCommentOrBreak start
        Read.skipBreak
        return (⟨kind, start, stop⟩ : Token)) := by
    intro start x hx
    refine hx.bind fun kind hk => ?_
    have htoken := answers_token hk
    dsimp only
    infer_instance
  unfold Property.readDirective
  dsimp only at hrest ⊢
  infer_instance

theorem answers_reading {α : Type} {P : α → Prop} {r : Read α} (h : Answers P r) :
    Answers P (reading r) := by
  refine ⟨fun s => ?_⟩
  rw [leads_reading]
  exact h.leads s.cursor

theorem carries_readKeyPart {r : Read Token} (hr : Carries Passes r) (ht : Answers Unnoted r) :
    Carries Quiet (readKeyPart r) := by
  unfold readKeyPart
  refine .bind inferInstance fun _ => .bind inferInstance fun _ => ?_
  exact .bind_answers inferInstance (answers_reading ht) fun t h =>
    have hpush := carries_push h
    inferInstance

instance carries_readPlain : Carries Quiet readPlain := by
  unfold readPlain
  refine .bind inferInstance fun _ => .bind inferInstance fun _ => .bind inferInstance fun s => ?_
  refine .bind_answers inferInstance (answers_reading (answers_readPlain _ _)) fun ⟨t, broken⟩ h => ?_
  have hpush : Carries Still (push t) := carries_push h
  dsimp only
  infer_instance

instance carries_readBlockScalar (literal : Bool) : Carries Quiet (readBlockScalar literal) := by
  unfold readBlockScalar
  refine .bind inferInstance fun _ => .bind inferInstance fun _ => .bind inferInstance fun s => ?_
  refine .bind_answers inferInstance (answers_reading (answers_readBlock _ _)) fun ⟨t, comment⟩ h => ?_
  have hpush : Carries Still (push t) := carries_push h
  dsimp only
  infer_instance

instance carries_readDirective : Carries Quiet readDirective := by
  unfold readDirective
  refine .bind inferInstance fun _ => ?_
  exact .bind_answers inferInstance (answers_reading answers_readDirective) fun t h =>
    have hpush := carries_push h
    inferInstance

/-! ## Between tokens -/

instance carries_readComments (origin : Mark) : Carries Roams (readComments origin) := by
  unfold readComments
  infer_instance

instance carries_adoptLineComment : Carries Rests adoptLineComment := by
  refine carries_modify fun s => ?_
  split
  · dsimp only
    split
    · exact rests_of_eq rfl ⟨rfl, rfl, rfl⟩
    · exact Std.Refl.refl s
  · exact Std.Refl.refl s

instance carries_skipToToken (origin : Mark) (fuel : Nat) : Carries Roams (skipToToken origin fuel) := by
  induction fuel with
  | zero => exact carries_pure ()
  | succ fuel ih =>
    have hnext : ∀ s : TokenStream, Carries Roams (do
        if isBreak ((← get).cursor.ahead 0) then
          reading Read.skipBreak
          if s.flowLevel == 0 then allowKey true
          skipToToken origin fuel : Scan Unit) := by
      intro s
      dsimp only
      infer_instance
    unfold skipToToken
    dsimp only at hnext ⊢
    refine .bind inferInstance fun _ => .bind inferInstance fun s => .when inferInstance ?_
    refine .bind inferInstance fun s => .bind inferInstance fun _ => .bind inferInstance fun _ => ?_
    exact .bind inferInstance fun s' => .when inferInstance (hnext s)

instance carries_commentOwner (c : Char) : Carries Rests (commentOwner c) := by
  unfold commentOwner
  infer_instance

/-! ## Noted tokens -/

theorem noted_push {kind : TokenKind} (hkind : kind.isNoted = true) (ts : List Token) (start stop : Mark) :
    noted (ts ++ [⟨kind, start, stop⟩]) = noted ts ++ [⟨kind, start, stop⟩] := by
  rw [noted_append]
  simp [noted, hkind]

/-- A bracket at the cursor is read as a mark. -/
theorem leaves_bracket {s : TokenStream} {kind : TokenKind} {c : Char} (hkind : kind.bracket? = some c)
    (hc : s.cursor.ahead 0 = c) (hne : c ≠ endChar) : Leaves Reads s (readMark kind 1) := by
  -- no bracket is the character past the end, so it is at hand
  obtain ⟨r, hready⟩ : ∃ r, s.cursor.ready = c :: r := by
    unfold Cursor.ahead at hc
    cases hr : s.cursor.ready with
    | nil =>
      rw [hr] at hc
      exact absurd hc.symm hne
    | cons d r =>
      rw [hr] at hc
      exact ⟨r, congrArg (· :: r) hc⟩
  have hskip := Read.carries_skip.leaves s.cursor
  have hindex : s.cursor.skip.mark.index = s.cursor.mark.index + 1 := by
    rw [Cursor.skip, hready]
  have hnoted : kind.isNoted = true := by rw [TokenKind.isNoted, hkind]; rfl
  refine ⟨hskip, fun _ src hsrc hno => ⟨[⟨kind, s.cursor.mark, s.cursor.skip.mark⟩], ?_, ?_⟩⟩
  · exact noted_push hnoted s.queue _ _
  · have hchar : src.chars[s.cursor.mark.index]? = some c :=
      (hsrc.getElem? hready).resolve_right fun h => hne h.1
    refine .singleton (Nat.le_refl _) (fun _ => ?_) (fun d hd => ?_) fun hend => ?_
    · show s.cursor.mark.index < s.cursor.skip.mark.index
      omega
    · rw [← hd, hkind]
      exact hchar
    · obtain rfl : kind = .streamEnd := hend
      cases hkind

/-- What comes before a mark leaves the cursor there, if it does not fail. -/
theorem leaves_still_bind {s : TokenStream} {x : Scan Unit} {y : Scan Unit} (hx : Carries Still x)
    (hpass : ∀ s' : TokenStream, Passes s'.cursor (stateOf (y s')).cursor)
    (hy : ∀ s', s'.cursor = s.cursor → Leaves Reads s' y) : Leaves Reads s (x >>= fun _ => y) := by
  refine Leaves.bind_leads (hx.leaves s).1.reads (hx.leaves s).leads fun _ s' hs' => ?_
  by_cases htrouble : s'.cursor.trouble = none
  · exact hy s' (hs'.2 htrouble)
  · exact ⟨hpass s', fun h => absurd ((hpass s').2 h).1 htrouble⟩

section Brackets

variable {s : TokenStream} {kind : TokenKind} {c : Char}

theorem leaves_still_bracket {x : Scan Unit} (hx : Carries Still x) (hkind : kind.bracket? = some c)
    (hc : s.cursor.ahead 0 = c) (hne : c ≠ endChar) :
    Leaves Reads s (x >>= fun _ => readMark kind 1) := by
  refine leaves_still_bind hx (fun s' => Read.carries_skip.leaves s'.cursor) fun s' hs' => ?_
  exact leaves_bracket hkind (hs' ▸ hc) hne

theorem leaves_readFlowStart (hkind : kind.bracket? = some c) (hc : s.cursor.ahead 0 = c)
    (hne : c ≠ endChar) : Leaves Reads s (readFlowStart kind) := by
  have hbefore : Carries Still (do
      saveKey
      enterFlow
      allowKey true) := inferInstance
  have heq := leaves_still_bracket hbefore hkind hc hne
  simp only [bind_assoc] at heq
  exact heq

theorem leaves_readFlowEnd (hkind : kind.bracket? = some c) (hc : s.cursor.ahead 0 = c)
    (hne : c ≠ endChar) : Leaves Reads s (readFlowEnd kind) := by
  have hbefore : Carries Still (do
      dropKey
      leaveFlow
      allowKey false) := inferInstance
  have heq := leaves_still_bracket hbefore hkind hc hne
  simp only [bind_assoc] at heq
  exact heq

end Brackets

/-- The token at the cursor is a noted one if it starts with a bracket. -/
theorem leaves_readerOf {s : TokenStream} {c : Char} (hc : s.cursor.ahead 0 = c) (inFlow : Bool)
    (d : Char) : Leaves Reads s (readerOf inFlow c d) := by
  have halias :=
    carries_readKeyPart (Property.carries_readAnchor .alias) (answers_readAnchor fun _ => rfl)
  have hanchor :=
    carries_readKeyPart (Property.carries_readAnchor .anchor) (answers_readAnchor fun _ => rfl)
  have htag := carries_readKeyPart Property.carries_readTag answers_readTag
  have hquoted := carries_readKeyPart (Scalar.carries_readQuoted c) (answers_readQuoted c)
  -- all readers but those of the brackets are found by their instances
  have hothers : Carries Reads (do
      if c == ',' then readFlowEntry
      else if c == '?' && (inFlow || isGap d) then readKey
      else if c == ':' && (inFlow || isGap d) then readValue
      else if c == '*' then readKeyPart (Property.readAnchor .alias)
      else if c == '&' then readKeyPart (Property.readAnchor .anchor)
      else if c == '!' then readKeyPart Property.readTag
      else if c == '|' && !inFlow then readBlockScalar true
      else if c == '>' && !inFlow then readBlockScalar false
      else if c == '\'' || c == '"' then readKeyPart (Scalar.readQuoted c)
      else if startsPlain inFlow c d then readPlain
      else fail .noToken (← mark)) := inferInstance
  unfold readerOf
  by_cases hsequence : (c == '[') = true
  · rw [if_pos hsequence]
    exact leaves_readFlowStart rfl (hc.trans (beq_iff_eq.1 hsequence)) (by decide)
  rw [if_neg hsequence]
  by_cases hmapping : (c == '\x7b') = true
  · rw [if_pos hmapping]
    exact leaves_readFlowStart rfl (hc.trans (beq_iff_eq.1 hmapping)) (by decide)
  rw [if_neg hmapping]
  by_cases hsequenceEnd : (c == ']') = true
  · rw [if_pos hsequenceEnd]
    exact leaves_readFlowEnd rfl (hc.trans (beq_iff_eq.1 hsequenceEnd)) (by decide)
  rw [if_neg hsequenceEnd]
  by_cases hmappingEnd : (c == '\x7d') = true
  · rw [if_pos hmappingEnd]
    exact leaves_readFlowEnd rfl (hc.trans (beq_iff_eq.1 hmappingEnd)) (by decide)
  rw [if_neg hmappingEnd]
  exact hothers.leaves s

theorem leaves_readTokenAt {s : TokenStream} {c : Char} (hc : s.cursor.ahead 0 = c) (d : Char) :
    Leaves Reads s (readTokenAt c d) := by
  rw [readTokenAt_eq, leaves_get_bind]
  dsimp only
  split
  · exact leaves_of_carries readBlockEntry
  · unfold commentOwner
    simp only [bind_assoc, pure_bind]
    rw [leaves_get_bind]
    exact Leaves.bind (leaves_readerOf hc _ d) inferInstance

/-- At the end of a source that is not damaged, the end of the stream is put into the queue. -/
theorem leaves_quiet_end {s : TokenStream} {r : List Char} {x : Scan Unit} (hx : Carries Quiet x)
    (hready : s.cursor.ready = endChar :: r) :
    Leaves Reads s (do
      x
      let m ← mark
      push ⟨.streamEnd, m, m⟩) := by
  have hquiet := hx.leaves s
  unfold Leaves at hquiet
  show Reads s (stateOf (EStateM.bind x _ s))
  unfold EStateM.bind
  cases hr : x s with
  | error e s' =>
    rw [hr] at hquiet
    exact hquiet.reads
  | ok a s' =>
    rw [hr] at hquiet
    refine ⟨hquiet.1, fun htrouble src hsrc hno =>
      ⟨[⟨.streamEnd, s'.cursor.mark, s'.cursor.mark⟩], ?_, ?_⟩⟩
    · exact (noted_push rfl s'.queue _ _).trans (congrArg (· ++ _) hquiet.2)
    · have hle := (hquiet.1.2 htrouble).2.1
      -- `endChar` is no character of the source, so the cursor stands behind the last one
      have hwhole : src.damage = none := by
        rcases hsrc.getElem? hready with hget | hend
        · exact absurd (List.mem_of_getElem? hget) hno
        · exact hend.2
      refine .singleton hle (fun hb => ?_) (fun c hc => ?_) fun _ => hwhole
      · cases hb
      · cases hc

/-- Moving to a line of its own does not move the cursor over characters. -/
instance carries_newLine : Carries Roams (modify fun s : TokenStream =>
    if s.cursor.mark.column == 0 then s
    else
      { s with
        cursor.mark := { s.cursor.mark with column := 0, line := s.cursor.mark.line + 1 } } :
    Scan PUnit) := by
  refine carries_modify fun s => ?_
  split
  · exact Std.Refl.refl s
  · have hready : s.cursor.ready = [] ++ s.cursor.ready := rfl
    exact ⟨Read.passes_move hready rfl rfl rfl rfl rfl rfl, rfl, rfl, rfl⟩

theorem leaves_readStreamEnd {s : TokenStream} {r : List Char} (hready : s.cursor.ready = endChar :: r) :
    Leaves Reads s readStreamEnd := by
  have hend := leaves_quiet_end (x := _ >>= fun _ => mark >>= fun m => leaveBlocks (-1) m >>= fun _ =>
    dropKey >>= fun _ => allowKey false) (@carries_bind _ _ _ _ _ _ _ _
      (@carries_quiet_of_roams _ _ carries_newLine) inferInstance) hready
  simp only [bind_assoc] at hend
  exact hend

/-- Read the token at the cursor, when the next characters are at hand. -/
def atHand : Scan Unit := do
  let cur := (← get).cursor
  let c := cur.ahead 0
  if c == endChar then readStreamEnd
  else if cur.mark.column == 0 && c == '%' then readDirective
  else if cur.atDocumentMark then
    readDocumentMark (if c == '-' then .documentStart else .documentEnd)
  else readTokenAt c (cur.ahead 1)

theorem atToken_eq : atToken = (do
    reading (Read.need 4)
    atHand) := rfl

theorem leaves_atHand {s : TokenStream} (hready : s.cursor.ready ≠ []) : Leaves Reads s atHand := by
  unfold atHand
  rw [leaves_get_bind]
  dsimp only
  split
  · rename_i hend
    obtain ⟨c, r, hr⟩ := List.exists_cons_of_ne_nil hready
    rw [beq_iff_eq, Cursor.ahead, hr] at hend
    exact leaves_readStreamEnd (hr.trans (congrArg (· :: r) hend))
  · split
    · exact leaves_of_carries _
    · split
      · split
        · have hmark := carries_readDocumentMark (show TokenKind.documentStart.isNoted = false from rfl)
          exact leaves_of_carries _
        · have hmark := carries_readDocumentMark (show TokenKind.documentEnd.isNoted = false from rfl)
          exact leaves_of_carries _
      · exact leaves_readTokenAt rfl _

instance carries_atToken : Carries Reads atToken := by
  rw [atToken_eq]
  refine ⟨fun s => ?_⟩
  have hneed : Leads True (reading (Read.need 4)) s fun _ s' => s'.cursor.ready ≠ [] := by
    rw [leads_reading]
    exact Read.leads_need_ready 3 s.cursor
  have hfirst : Leaves Reads s (reading (Read.need 4)) := leaves_of_carries _
  exact hfirst.bind_leads hneed fun _ s' hs' => leaves_atHand hs'

/-! ## Tokens one after the other -/

section Tokens

variable {R : TokenStream → TokenStream → Prop} [IsTrans TokenStream R]

/-- What leads to a token, leaving blocks, and the token itself make up the reading of a token. -/
theorem carries_readToken_of (hroams : ∀ {α : Type} (x : Scan α) [Carries Roams x], Carries R x)
    (hstart : Carries R readStreamStart)
    (hleave : ∀ m m' : Mark, Carries R (leaveBlocks (m.column : Int) m'))
    (htoken : Carries R atToken) : Carries R readToken := by
  rw [readToken_eq]
  refine .bind (hroams _) fun _ => .bind (hroams _) fun s => ?_
  split
  · exact hstart
  · refine .bind (hroams _) fun start => .bind (hroams _) fun s => .bind (hroams _) fun _ => ?_
    exact .bind (hroams _) fun m => .bind (hleave m start) fun _ => htoken

variable [Std.Refl R]

/-- Tokens are read until the first one can be handed out, and pending keys are dropped
meanwhile. -/
theorem carries_readAhead_of (hroams : ∀ {α : Type} (x : Scan α) [Carries Roams x], Carries R x)
    (hread : Carries R readToken) (fuel : Nat) : Carries R (readAhead fuel) := by
  induction fuel with
  | zero => exact carries_throw _
  | succ fuel ih =>
    unfold readAhead
    refine .bind inferInstance fun s => .bind ?_ inferInstance
    split
    · split <;> infer_instance
    · infer_instance

/-- The first token is looked at once it can be handed out. -/
theorem carries_peek_of (hahead : ∀ fuel, Carries R (readAhead fuel)) : Carries R peek := by
  unfold peek
  refine .bind inferInstance fun s => .bind inferInstance fun _ => .bind inferInstance fun s => ?_
  split <;> infer_instance

end Tokens

instance carries_readToken : Carries Reads readToken :=
  carries_readToken_of (fun _ => inferInstance) inferInstance (fun _ _ => inferInstance) inferInstance

instance carries_readAhead (fuel : Nat) : Carries Reads (readAhead fuel) :=
  carries_readAhead_of (fun _ => inferInstance) inferInstance fuel

instance carries_peek : Carries Reads peek := carries_peek_of inferInstance

instance carries_claim (t : Token) : Carries Rests (claim t) :=
  carries_modifyGet fun _ => rests_of_eq rfl ⟨rfl, rfl, rfl⟩

end TokenStream

end TreeLang.Yaml
