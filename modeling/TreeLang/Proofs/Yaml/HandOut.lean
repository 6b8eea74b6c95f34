import TreeLang.Proofs.Yaml.FlowMarks

/-!
# The tokens that a stream hands out

The tokens of a stream are looked at and taken one after the other (`TokenStream.handed`). A second
look at a token changes nothing (`look_look`), so it makes no difference how often one looks before
a token is taken, and whoever takes the tokens of a stream takes these.

The brackets among the tokens that are handed out stand in the source, each after the ones before it
(`placed_handed`).
-/

set_option autoImplicit false

namespace TreeLang.Yaml.TokenStream

open Cursor (Passes Within)

/-! ## Looking -/

/-- Look at the next token, which stays. The comments in front of it are claimed. -/
def look : Scan Token := do
  let t ← peek
  let _ ← claim t
  return t

instance carries_look : Carries Reads look := by
  unfold look
  infer_instance

/-- Whether the first token can be handed out. -/
def isReady : Scan Bool := do
  let s ← get
  match s.queue with
  | _ :: _ :: _ :: _ =>
    match s.watched.lookup s.taken with
    | none => return true
    | some level => return !(← keyStands level)
  | _ => return false

theorem readAhead_succ (fuel : Nat) : readAhead (fuel + 1) = (do
    if !(← isReady) then
      readToken
      readAhead fuel) := rfl

/-- No key is pending at a level. -/
def NoKey (level : Nat) (s : TokenStream) : Prop :=
  ∀ k, s.keys[s.flowLevel - level]? = some k → k.possible = false

theorem leads_keyStands_noKey {level : Nat} {s : TokenStream} (h : NoKey level s) :
    Leads False (keyStands level) s fun stands s' => stands = false ∧ s' = s := by
  unfold keyStands
  simp only [leads_bind, leads_get]
  split
  · exact ⟨rfl, rfl⟩
  · rename_i k hk
    rw [if_pos (by rw [h k hk]; rfl)]
    exact ⟨rfl, rfl⟩

/-- Where a key does not stand, none is pending afterwards. -/
theorem leads_keyStands_noKey_after (level : Nat) (s : TokenStream) :
    Leads True (keyStands level) s fun stands s' =>
      (∃ keys, s' = { s with keys := keys }) ∧ (stands = false → NoKey level s') := by
  unfold keyStands
  simp only [leads_bind, leads_get]
  split
  · rename_i hnone
    refine ⟨⟨s.keys, rfl⟩, fun _ k hk => ?_⟩
    rw [hnone] at hk
    cases hk
  · rename_i k hk
    split
    · rename_i hoff
      refine ⟨⟨s.keys, rfl⟩, fun _ k' hk' => ?_⟩
      rw [hk] at hk'
      cases hk'
      simpa using hoff
    · split
      · have hdropped : Leads True (do
            set { s with keys := s.keys.set (s.flowLevel - level) { k with possible := false } }
            return false : Scan Bool) s fun stands s' =>
            (∃ keys, s' = { s with keys := keys }) ∧ (stands = false → NoKey level s') := by
          refine ⟨⟨_, rfl⟩, fun _ k' hk' => ?_⟩
          rw [List.getElem?_set_self' , hk] at hk'
          cases hk'
          rfl
        split
        · trivial
        · exact hdropped
      · exact ⟨⟨s.keys, rfl⟩, fun h => by cases h⟩

/-- Three tokens are read, and the first one starts no pending key. -/
structure Ready (s : TokenStream) : Prop where
  queue : ∃ t u v r, s.queue = t :: u :: v :: r
  noKey : ∀ level, s.watched.lookup s.taken = some level → NoKey level s

theorem leads_isReady_of_ready {s : TokenStream} (h : Ready s) :
    Leads False isReady s fun ready s' => ready = true ∧ s' = s := by
  obtain ⟨t, u, v, r, hqueue⟩ := h.queue
  unfold isReady
  simp only [leads_bind, leads_get, hqueue]
  split
  · exact ⟨rfl, rfl⟩
  · rename_i level hlevel
    rw [leads_bind]
    refine (leads_keyStands_noKey (h.noKey level hlevel)).mono fun stands s' hs' => ?_
    rw [hs'.1, hs'.2]
    exact ⟨rfl, rfl⟩

theorem leads_isReady (s : TokenStream) :
    Leads True isReady s fun ready s' => ready = true → Ready s' := by
  unfold isReady
  simp only [leads_bind, leads_get]
  split
  · rename_i t u v r hqueue
    split
    · rename_i hnone
      refine fun _ => ⟨⟨t, u, v, r, hqueue⟩, fun level hlevel => ?_⟩
      rw [hnone] at hlevel
      cases hlevel
    · rename_i level hlevel
      rw [leads_bind]
      refine (leads_keyStands_noKey_after level s).mono fun stands s' hs' => ?_
      obtain ⟨⟨keys, rfl⟩, hno⟩ := hs'
      refine fun hready => ⟨⟨t, u, v, r, hqueue⟩, fun level' hlevel' => ?_⟩
      obtain rfl : level = level' := Option.some.inj (hlevel.symm.trans hlevel')
      exact hno (by simpa using hready)
  · exact fun h => by cases h

theorem leads_readAhead_ready (fuel : Nat) (s : TokenStream) :
    Leads True (readAhead fuel) s fun _ s' => 0 < fuel ∧ Ready s' := by
  induction fuel generalizing s with
  | zero => trivial
  | succ fuel ih =>
    rw [readAhead_succ, leads_bind]
    refine (leads_isReady s).mono fun ready s₁ hready => ?_
    cases ready with
    | true => exact ⟨Nat.succ_pos fuel, hready rfl⟩
    | false =>
      show Leads True (readToken >>= fun _ => readAhead fuel) s₁ _
      rw [leads_bind]
      exact ((answers_true readToken).leads s₁).mono fun _ s₂ _ =>
        (ih s₂).mono fun _ s' hs' => ⟨Nat.succ_pos fuel, hs'.2⟩

theorem leads_readAhead_of_ready {s : TokenStream} (h : Ready s) (fuel : Nat) :
    Leads False (readAhead (fuel + 1)) s fun _ s' => s' = s := by
  rw [readAhead_succ, leads_bind]
  refine (leads_isReady_of_ready h).mono fun ready s' hs' => ?_
  rw [hs'.1, hs'.2]
  rfl

/-- The token has been looked at: it is first in the queue, and no comment in front of it is
left. -/
structure Looked (t : Token) (s : TokenStream) : Prop extends Ready s where
  first : s.queue.head? = some t
  bound : 0 < s.cursor.bound
  unclaimed : ∀ c ∈ s.comments.head?,
    (c.owner ≤ t.start.index && !(c.kind == .head && t.kind == .blockEnd)) = false

theorem leads_look (s : TokenStream) : Leads True look s Looked := by
  unfold look peek
  simp only [leads_bind, leads_get]
  have hread := (leads_readAhead_ready s.cursor.bound s).and ((carries_readAhead _).leaves s).leads
  refine hread.mono fun _ s₁ hs₁ => ?_
  obtain ⟨⟨hbound, hready⟩, hpasses, -⟩ := hs₁
  obtain ⟨t, u, v, r, hqueue⟩ := hready.queue
  simp only [hqueue, leads_pure]
  unfold claim
  rw [leads_modifyGet, List.span_eq_takeWhile_dropWhile]
  refine ⟨⟨⟨t, u, v, r, hqueue⟩, hready.noKey⟩, congrArg List.head? hqueue, ?_, ?_⟩
  · show 0 < s₁.cursor.bound
    rwa [hpasses.1]
  · intro c hc
    have hnot := List.head?_dropWhile_not
      (fun c : Comment => decide (c.owner ≤ t.start.index) && !(c.kind == .head && t.kind == .blockEnd))
      s₁.comments
    rw [Option.mem_def.1 hc] at hnot
    exact hnot

/-- A second look sees the same token. The comments in front of it were claimed by the first one. -/
theorem Looked.look_eq {t : Token} {s : TokenStream} (h : Looked t s) : look s = .ok t s := by
  obtain ⟨r, hqueue⟩ : ∃ r, s.queue = t :: r := List.head?_eq_some_iff.1 h.first
  obtain ⟨n, hn⟩ := Nat.exists_eq_succ_of_ne_zero (Nat.ne_of_gt h.bound)
  have hlook : Leads False look s fun t' s' => t' = t ∧ s' = s := by
    unfold look peek
    simp only [leads_bind, leads_get]
    rw [hn]
    refine (leads_readAhead_of_ready h.toReady n).mono fun _ s' hs' => ?_
    subst hs'
    simp only [hqueue, leads_pure]
    unfold claim
    rw [leads_modifyGet, List.span_eq_takeWhile_dropWhile]
    refine ⟨trivial, ?_⟩
    have hdrop : s'.comments.dropWhile (fun c : Comment =>
        decide (c.owner ≤ t.start.index) && !(c.kind == .head && t.kind == .blockEnd)) = s'.comments := by
      cases hc : s'.comments with
      | nil => rfl
      | cons c cs =>
        have hfirst := h.unclaimed c (by rw [hc]; rfl)
        rw [List.dropWhile_cons_of_neg]
        rw [hfirst]
        exact Bool.false_ne_true
    dsimp only
    rw [hdrop]
  obtain ⟨t', s', heq, rfl, rfl⟩ := hlook.exists_ok
  exact heq

theorem looked_of_look {s s' : TokenStream} {t : Token} (h : look s = .ok t s') : Looked t s' := by
  have hlooked := leads_look s
  unfold Leads at hlooked
  rwa [h] at hlooked

/-- A second look at a token shows the same token, and changes nothing. -/
theorem look_look {s s' : TokenStream} {t : Token} (h : look s = .ok t s') : look s' = .ok t s' :=
  (looked_of_look h).look_eq

/-! ## Handing out -/

/-- The stream after its first token is taken. -/
def tail (s : TokenStream) : TokenStream :=
  { s with
    queue := s.queue.drop 1
    taken := s.taken + 1
    watched := s.watched.filter (s.taken < ·.1) }

/-- The tokens that a stream hands out in so many steps, and the stream after them. A step that
fails hands out nothing; the next one goes on from there. -/
def handed : Nat → TokenStream → List Token × TokenStream
  | 0, s => ([], s)
  | n + 1, s =>
    match look s with
    | .ok t s' => (t :: (handed n s'.tail).1, (handed n s'.tail).2)
    | .error _ s' => handed n s'

section Handed

variable {n : Nat} {s s₁ s₂ : TokenStream} {ts : List Token} {t : Token}

/-- Steps one after the other: the later ones go on from where the earlier ones end. -/
theorem handed_add (n k : Nat) (s : TokenStream) :
    handed (n + k) s =
      ((handed n s).1 ++ (handed k (handed n s).2).1, (handed k (handed n s).2).2) := by
  induction n generalizing s with
  | zero => rw [Nat.zero_add, handed, List.nil_append]
  | succ n ih =>
    rw [Nat.succ_add, handed, handed]
    cases look s with
    | error e s' => exact ih s'
    | ok u s' =>
      dsimp only
      rw [ih s'.tail, List.cons_append]

theorem handed_concat (h : handed n s = (ts, s₁)) (hlook : look s₁ = .ok t s₂) :
    handed (n + 1) s = (ts ++ [t], s₂.tail) := by
  have hone : handed 1 s₁ = ([t], s₂.tail) := by
    rw [handed, hlook]
    rfl
  rw [handed_add, h, hone]

theorem handed_error {e : Error} (h : handed n s = (ts, s₁)) (hlook : look s₁ = .error e s₂) :
    handed (n + 1) s = (ts, s₂) := by
  have hone : handed 1 s₁ = ([], s₂) := by
    rw [handed, hlook]
    rfl
  rw [handed_add, h, hone, List.append_nil]

/-- The tokens of more steps begin with those of fewer. -/
theorem handed_prefix (k : Nat) : (handed n s).1 <+: (handed (n + k) s).1 := by
  rw [handed_add]
  exact List.prefix_append _ _

/-- Tokens that are handed out before the end of the stream are the first ones of those up to its
end. -/
theorem prefix_of_streamEnd {m : Nat} {us : List Token} {u : Token} (hn : handed n s = (ts ++ [t], s₁))
    (hm : handed m s = (us ++ [u], s₂)) (hts : ∀ v ∈ ts, v.kind ≠ .streamEnd) (hu : u.kind = .streamEnd) :
    ts ++ [t] <+: us ++ [u] := by
  rcases Nat.le_total n m with hle | hle
  · obtain ⟨k, rfl⟩ := Nat.exists_eq_add_of_le hle
    have hprefix := handed_prefix (n := n) (s := s) k
    rwa [hn, hm] at hprefix
  · obtain ⟨k, rfl⟩ := Nat.exists_eq_add_of_le hle
    have hprefix := handed_prefix (n := m) (s := s) k
    rw [hn, hm] at hprefix
    -- otherwise the end of the stream would be one of the tokens in front
    rcases List.prefix_concat_iff.1 hprefix with heq | hless
    · exact heq ▸ List.prefix_refl _
    · exact absurd hu (hts u (hless.subset (List.mem_append_right us List.mem_cons_self)))

/-- The brackets that are handed out and those that wait in the queue stand in the source. -/
theorem placed_handed {src : Source} (hno : endChar ∉ src.chars) (h : handed n (ofSource src) = (ts, s))
    (htrouble : s.cursor.trouble = none) :
    Within src s.cursor ∧ Placed src 0 s.cursor.mark.index (noted (ts ++ s.queue)) := by
  induction n generalizing ts s with
  | zero =>
    cases h
    exact ⟨Within.ofSource src, .nil⟩
  | succ n ih =>
    cases hn : handed n (ofSource src) with
    | mk us s₁ =>
      have hread : ∀ s₂, stateOf (look s₁) = s₂ → s₂.cursor.trouble = none →
          Within src s₂.cursor ∧ Placed src 0 s₂.cursor.mark.index (noted (us ++ s₂.queue)) := by
        rintro s₂ rfl hs₂
        obtain ⟨hpasses, hnew⟩ := carries_look.leaves s₁
        obtain ⟨htrouble₁, hle, hwithin⟩ := hpasses.2 hs₂
        obtain ⟨hin, hplaced⟩ := ih hn htrouble₁
        obtain ⟨new, heq, hstand⟩ := hnew hs₂ src hin hno
        refine ⟨hwithin src hin, ?_⟩
        rw [noted_append, heq, ← List.append_assoc, ← noted_append]
        exact hplaced.append hstand (Nat.zero_le _) hle
      cases hlook : look s₁ with
      | error e s₂ =>
        rw [handed_error hn hlook] at h
        cases h
        exact hread _ (by rw [hlook]; rfl) htrouble
      | ok t s₂ =>
        rw [handed_concat hn hlook] at h
        cases h
        obtain ⟨hin, hplaced⟩ := hread s₂ (by rw [hlook]; rfl) htrouble
        obtain ⟨r, hqueue⟩ := List.head?_eq_some_iff.1 (looked_of_look hlook).first
        refine ⟨hin, ?_⟩
        have heq : us ++ [t] ++ s₂.tail.queue = us ++ s₂.queue := by
          rw [tail, hqueue, List.append_assoc]
          rfl
        rw [heq]
        exact hplaced

end Handed

end TreeLang.Yaml.TokenStream
