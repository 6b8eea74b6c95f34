import TreeLang.Proofs.Tree.Expansion
import TreeLang.Tree.Stream

/-!
# Documents of a stream are decoded on their own

A stream of trees keeps the aliases that are being followed from one document to the next. It is
called again after a document that denotes no tree, so a call may have ended anywhere inside nested
aliases. But every decoder leaves the same aliases to be followed as it found, on success and on
failure. So between the calls there are none, and each document is decoded as if it were the first
(`TreeStream.calls_eq_alone`).
-/

set_option autoImplicit false

namespace TreeLang

open Yaml (Document DocumentStream)

namespace Decode

/-- From no aliases a document is decoded as on its own, and no aliases are followed in the end. -/
theorem document_fresh (d : Document) :
    ∃ v, (∃ t, Tree.ofDocument d = .ok t ∧ Decode.document d {} = .ok t ⟨[], v⟩) ∨
      ∃ f, Tree.ofDocument d = .error f ∧ Decode.document d {} = .error f ⟨[], v⟩ := by
  have hends := (exact_document d).ends 0 (Nat.zero_le _)
  unfold Tree.ofDocument
  generalize hr : Decode.document d {} = r
  rw [show Decode.document d ⟨[], 0⟩ = r from hr] at hends
  cases hends with
  | ok _ _ => exact ⟨_, Or.inl ⟨_, rfl, rfl⟩⟩
  | error _ _ => exact ⟨_, Or.inr ⟨_, rfl, rfl⟩⟩

end Decode

namespace TreeStream

/-- What a call on a stream gives. -/
abbrev Answer := Except ReadError (Option Tree)

/-- The answers of so many calls on a stream, one after the other, whether they succeed or fail, and
the stream after them. -/
def calls : Nat → TreeStream → List Answer × TreeStream
  | 0, s => ([], s)
  | n + 1, s =>
    match next? s with
    | .ok t rest => ((calls n rest).1.cons (.ok t), (calls n rest).2)
    | .error e rest => ((calls n rest).1.cons (.error e), (calls n rest).2)

/-- The answer for a document that is decoded on its own. -/
def alone (d : Document) : Answer :=
  match Tree.ofDocument d with
  | .ok t => .ok (some t)
  | .error f => .error (.tree f)

/-- While no aliases are followed, a call gives the answer for the next document on its own, and
then none are followed again. -/
theorem next?_alone {s : TreeStream} {d : Document} {rest : DocumentStream}
    (hs : s.expansion.followed = [])
    (hd : DocumentStream.next?.run s.documents = .ok (some d, rest)) :
    ∃ r : TreeStream, r.documents = rest ∧ r.expansion.followed = [] ∧
      ((∃ t, alone d = .ok t ∧ next? s = .ok t r) ∨
        ∃ e, alone d = .error e ∧ next? s = .error e r) := by
  obtain ⟨documents, followed, v⟩ := s
  cases hs
  obtain ⟨w, hw⟩ := Decode.document_fresh d
  refine ⟨⟨rest, [], w⟩, rfl, rfl, ?_⟩
  unfold next? alone
  rw [hd]
  rcases hw with ⟨t, hof, ht⟩ | ⟨f, hof, hf⟩
  · rw [hof]
    dsimp only
    rw [ht]
    exact Or.inl ⟨_, rfl, rfl⟩
  · rw [hof]
    dsimp only
    rw [hf]
    exact Or.inr ⟨_, rfl, rfl⟩

/-- While no aliases are followed, calls give the answers for the next documents on their own, and
then none are followed again. -/
theorem calls_alone {n : Nat} {docs : List Document} {s : TreeStream}
    (hs : s.expansion.followed = []) (hdocs : s.documents.first? n = some docs) :
    (calls n s).1 = docs.map alone ∧ (calls n s).2.expansion.followed = [] := by
  induction n generalizing docs s with
  | zero =>
    cases hdocs
    exact ⟨rfl, hs⟩
  | succ n ih =>
    unfold DocumentStream.first? at hdocs
    split at hdocs
    · rename_i d rest hd
      obtain ⟨ds, hds, rfl⟩ := Option.map_eq_some_iff.1 hdocs
      obtain ⟨r, hrest, hr, hnext⟩ := next?_alone hs hd
      -- between the first call and the others no aliases are followed
      obtain ⟨hanswers, hfollowed⟩ := ih hr (hrest ▸ hds)
      unfold calls
      rw [List.map_cons]
      rcases hnext with ⟨t, halone, hnext⟩ | ⟨e, halone, hnext⟩
      · rw [hnext, halone]
        exact ⟨congrArg _ hanswers, hfollowed⟩
      · rw [hnext, halone]
        exact ⟨congrArg _ hanswers, hfollowed⟩
    · cases hdocs

/-- On a fresh stream, each call gives what the document it comes to gives on its own, whatever the
documents before it were, and after it no aliases are being followed. -/
theorem calls_eq_alone (documents : DocumentStream) (n : Nat) (docs : List Document)
    (h : documents.first? n = some docs) :
    (calls n { documents := documents }).1 = docs.map alone ∧
      (calls n { documents := documents }).2.expansion.followed = [] :=
  calls_alone rfl h

/-- A stream of the documents `&a {print: *a}` and `7`. -/
def endlessThenSeven : DocumentStream :=
  DocumentStream.ofSource (.ofBytes (utf8 "&a {print: *a}\n--- 7\n"))

/-- After a document that is refused inside an alias, the next one is decoded. -/
theorem calls_eq_alone_endless :
    endlessThenSeven.first? 2 =
        some [endlessPrint, ⟨.scalar ⟨2, 5⟩ Yaml.Tag.int (utf8 "7"), endlessPrint.anchors⟩] ∧
      (calls 2 { documents := endlessThenSeven }).1 =
        [.error (.tree ⟨⟨1, 12⟩, .recursiveAlias⟩), .ok (some (.literal 7))] ∧
      (calls 2 { documents := endlessThenSeven }).2.expansion.followed = [] := by
  have hdocs : endlessThenSeven.first? 2 =
      some [endlessPrint, ⟨.scalar ⟨2, 5⟩ Yaml.Tag.int (utf8 "7"), endlessPrint.anchors⟩] := by
    cbv
  have hcalls := calls_eq_alone endlessThenSeven 2 _ hdocs
  refine ⟨hdocs, hcalls.1.trans ?_, hcalls.2⟩
  rfl

end TreeStream

end TreeLang
