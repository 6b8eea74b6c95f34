import TreeLang.Proofs.Yaml.TokenSteps

/-!
# Handing tokens out

Tokens are read ahead of those that are handed out, and how far ahead depends on the pending keys.
So what a stream hands out is said in two parts. `Delivers` is about reading only: the tokens that
reading on puts into the queue, whatever has been handed out in between. `Yields` adds the tokens
that wait in the queue already.

The last token of the queue may be a scalar that turns out to be a key when the colon behind it is
read, and other tokens come in front of it then. Such a token is not settled yet. It is never handed
out before the colon is read, since two more tokens have to follow a token that is handed out.
-/

set_option autoImplicit false

namespace TreeLang.Yaml.TokenStream

open Cursor (At)

/-! ## Streams that read alike -/

/-- Two streams that read the same tokens on: tokens have been handed out of the one queue, or
pending keys have lapsed, but nothing has been read. -/
structure Alike (s s' : TokenStream) : Prop where
  cursor : s'.cursor = s.cursor
  started : s'.started = s.started
  stack : s'.indent :: s'.indents = s.indent :: s.indents
  allowed : s'.keyAllowed = s.keyAllowed
  level : s'.flowLevel = s.flowLevel
  comments : s'.comments = s.comments
  number : s'.nextNumber = s.nextNumber
  length : s'.keys.length = s.keys.length
  optional : (∀ k ∈ s.keys, k.required = false) → ∀ k ∈ s'.keys, k.required = false
  lapsed : (∀ k ∈ s.keys, k.possible = false) → ∀ k ∈ s'.keys, k.possible = false
  head : ∀ k, s.keys.head? = some k → hasLapsed k s.cursor.mark = false → s'.keys.head? = some k

/-- A stream that stands somewhere in a text. -/
def Sound (N : Nat) (s : TokenStream) : Prop :=
  ∃ stack level allowed rest m, Stands N s stack level allowed rest m

section Alike

variable {N : Nat} {s s' s'' : TokenStream} {stack : List Int} {level : Nat} {allowed : Bool}
  {rest : List Char} {m : Mark}

theorem Alike.refl (s : TokenStream) : Alike s s :=
  ⟨rfl, rfl, rfl, rfl, rfl, rfl, rfl, rfl, id, id, fun _ h _ => h⟩

theorem Alike.trans (h : Alike s s') (h' : Alike s' s'') : Alike s s'' where
  cursor := h'.cursor.trans h.cursor
  started := h'.started.trans h.started
  stack := h'.stack.trans h.stack
  allowed := h'.allowed.trans h.allowed
  level := h'.level.trans h.level
  comments := h'.comments.trans h.comments
  number := h'.number.trans h.number
  length := h'.length.trans h.length
  optional := fun ho => h'.optional (h.optional ho)
  lapsed := fun hl => h'.lapsed (h.lapsed hl)
  head := fun k hk hl => h'.head k (h.head k hk hl) (h.cursor ▸ hl)

theorem Stands.alike (h : Stands N s stack level allowed rest m) (ha : Alike s s') :
    Stands N s' stack level allowed rest m where
  started := ha.started.trans h.started
  comments := ha.comments.trans h.comments
  stack_eq := ha.stack.trans h.stack_eq
  level_eq := ha.level.trans h.level_eq
  keys_length := ha.length.trans h.keys_length
  optional := ha.optional h.optional
  allowed_eq := ha.allowed.trans h.allowed_eq
  shows := ha.cursor ▸ h.shows

theorem Nears.alike (h : Nears N s stack level rest m allowed) (ha : Alike s s') :
    Nears N s' stack level rest m allowed := by
  cases h with
  | line h => exact .line (h.alike ha)
  | fresh hlevel h => exact .fresh hlevel (h.alike ha)

theorem Nears.sound (h : Nears N s stack level rest m allowed) : Sound N s := by
  obtain ⟨a, r, m, hs⟩ := h.stands
  exact ⟨stack, level, a, r, m, hs⟩

theorem Ended.alike (h : Ended N s) (ha : Alike s s') : Ended N s' := by
  obtain ⟨⟨m, hm⟩, hlapsed⟩ := h
  exact ⟨⟨m, hm.alike ha⟩, ha.lapsed hlapsed⟩

theorem Ended.sound (h : Ended N s) : Sound N s := by
  obtain ⟨m, hm⟩ := h.stands
  exact ⟨_, _, _, _, m, hm⟩

theorem Sound.alike (h : Sound N s) (ha : Alike s s') : Sound N s' := by
  obtain ⟨stack, level, allowed, rest, m, hs⟩ := h
  exact ⟨stack, level, allowed, rest, m, hs.alike ha⟩

theorem Pending.alike {q q' : List Token} {t : Token} {k : PendingKey} (h : Pending s q t k)
    (ha : Alike s s') (hqueue : s'.queue = q' ++ [t]) : Pending s' q' t k where
  queue := hqueue
  number := by
    have hnumber := ha.number
    unfold nextNumber at hnumber
    rw [hqueue, h.queue, List.length_append, List.length_append] at hnumber
    have := h.number
    omega
  head := ha.head k h.head h.lapsed
  possible := h.possible
  lapsed := ha.cursor ▸ h.lapsed

/-- Asking whether a pending key stands may make it lapse. -/
theorem leads_keyStands_alike {b : Prop} {Q : Bool → TokenStream → Prop} (h : Sound N s) (level : Nat)
    (hgo : ∀ stands s', Alike s s' → s'.queue = s.queue →
      (stands = true → ∃ k ∈ s.keys, k.possible = true) → Q stands s') :
    Leads b (keyStands level) s Q := by
  obtain ⟨_, _, _, _, _, hs⟩ := h
  unfold keyStands
  simp only [leads_bind, leads_get]
  cases hkey : s.keys[s.flowLevel - level]? with
  | none => exact hgo false s (Alike.refl s) rfl fun h => absurd h Bool.false_ne_true
  | some k =>
    have hmem : k ∈ s.keys := List.mem_of_getElem? hkey
    cases hpossible : k.possible with
    | false =>
      simp only [hpossible, Bool.not_false, if_true, leads_pure]
      exact hgo false s (Alike.refl s) rfl fun h => absurd h Bool.false_ne_true
    | true =>
      simp only [hpossible, Bool.not_true, Bool.false_eq_true, if_false]
      cases hlapsed : hasLapsed k s.cursor.mark with
      | false =>
        simp only [Bool.false_eq_true, if_false, leads_pure]
        exact hgo true s (Alike.refl s) rfl fun _ => ⟨k, hmem, hpossible⟩
      | true =>
        simp only [if_true, hs.optional k hmem, Bool.false_eq_true, if_false, leads_bind, leads_pure,
          leads_set]
        -- the key is put out, and the stream differs in that key only
        refine hgo false _ ?_ rfl fun h => absurd h Bool.false_ne_true
        refine ⟨rfl, rfl, rfl, rfl, rfl, rfl, rfl, List.length_set, ?_, ?_, ?_⟩
        · intro hoptional k' hk'
          rcases List.mem_or_eq_of_mem_set hk' with hk' | rfl
          · exact hoptional k' hk'
          · rfl
        · intro hgone k' hk'
          rcases List.mem_or_eq_of_mem_set hk' with hk' | rfl
          · exact hgone k' hk'
          · rfl
        · intro k' hk' hnot
          rw [List.head?_eq_getElem?] at hk' ⊢
          have hne : s.flowLevel - level ≠ 0 := by
            intro hzero
            rw [hzero, hk'] at hkey
            rw [Option.some.inj hkey, hlapsed] at hnot
            cases hnot
          rw [List.getElem?_set_ne hne]
          exact hk'

end Alike

/-! ## Reading on -/

/-- Reading on from `s`, at most `n` times until the end, puts tokens of the kinds `ks` into the
queue, where the unsettled tokens `r` at the end of the queue are counted among them. -/
def Delivers (b : Prop) (N : Nat) : Nat → TokenStream → List Token → List TokenKind → Prop
  | 0, s, r, ks => Ended N s ∧ r = [] ∧ ks = []
  | n + 1, s, r, ks =>
    Ended N s ∧ r = [] ∧ ks = [] ∨
      Sound N s ∧ r.length ≤ 1 ∧ ∀ s' q, Alike s s' → s'.queue = q ++ r →
        Leads b readToken s' fun _ s'' => s''.taken = s'.taken ∧
          ∃ ts r' ks', s''.queue = q ++ ts ++ r' ∧ ks = ts.map (·.kind) ++ ks' ∧
            Delivers b N n s'' r' ks'

section Delivers

variable {b : Prop} {N n n' : Nat} {s s' : TokenStream} {r : List Token} {ks ks' : List TokenKind}
  {stack : List Int} {level : Nat} {allowed : Bool} {rest : List Char} {m : Mark}

theorem Delivers.of_ended (h : Ended N s) (n : Nat) : Delivers b N n s [] [] := by
  cases n with
  | zero => exact ⟨h, rfl, rfl⟩
  | succ n => exact Or.inl ⟨h, rfl, rfl⟩

theorem Delivers.mono (hle : n ≤ n') (h : Delivers b N n s r ks) : Delivers b N n' s r ks := by
  induction n generalizing n' s r ks with
  | zero =>
    obtain ⟨hended, rfl, rfl⟩ := h
    exact .of_ended hended n'
  | succ n ih =>
    obtain ⟨n', rfl⟩ : ∃ p, n' = p + 1 := ⟨n' - 1, by omega⟩
    rcases h with ⟨hended, rfl, rfl⟩ | ⟨hsound, hlength, hread⟩
    · exact .of_ended hended (n' + 1)
    · refine Or.inr ⟨hsound, hlength, fun s' q ha hqueue => ?_⟩
      refine (hread s' q ha hqueue).mono fun _ s'' hs'' => ?_
      obtain ⟨htaken, ts, r', ks', hqueue', hks, hd⟩ := hs''
      exact ⟨htaken, ts, r', ks', hqueue', hks, ih (Nat.le_of_succ_le_succ hle) hd⟩

theorem Delivers.alike (h : Delivers b N n s r ks) (ha : Alike s s') : Delivers b N n s' r ks := by
  cases n with
  | zero => exact ⟨h.1.alike ha, h.2⟩
  | succ n =>
    rcases h with ⟨hended, hr⟩ | ⟨hsound, hlength, hread⟩
    · exact Or.inl ⟨hended.alike ha, hr⟩
    · exact Or.inr ⟨hsound.alike ha, hlength, fun s'' q ha' => hread s'' q (ha.trans ha')⟩

theorem Delivers.sound (h : Delivers b N n s r ks) : Sound N s := by
  cases n with
  | zero => exact h.1.sound
  | succ n =>
    rcases h with ⟨hended, -⟩ | ⟨hsound, -⟩
    · exact hended.sound
    · exact hsound

theorem Delivers.length_le (h : Delivers b N n s r ks) : r.length ≤ 1 := by
  cases n with
  | zero =>
    rw [h.2.1]
    exact Nat.zero_le 1
  | succ n =>
    rcases h with ⟨-, rfl, -⟩ | ⟨-, hlength, -⟩
    · exact Nat.zero_le 1
    · exact hlength

/-- Two tokens behind the first are enough to know that it is settled. -/
theorem Delivers.settled {q : List Token} (h : Delivers b N n s r ks) (hqueue : s.queue = q ++ r)
    (hlong : 3 ≤ s.queue.length) : ∃ t q', q = t :: q' := by
  have hr := h.length_le
  refine List.exists_cons_of_ne_nil fun hnil => ?_
  rw [hqueue, hnil, List.nil_append] at hlong
  omega

/-- Tokens are read that are settled at once. -/
theorem Nears.delivers (h : Nears N s stack level rest m allowed) (ks : List TokenKind) (hlt : n < n')
    (hread : ∀ s', Nears N s' stack level rest m allowed → Leads b readToken s' fun _ s'' =>
      Pushes s' s'' ks ∧ Delivers b N n s'' [] ks') :
    Delivers b N n' s [] (ks ++ ks') := by
  refine Delivers.mono (Nat.succ_le_of_lt hlt) (Or.inr ⟨h.sound, Nat.zero_le 1, fun s' q ha hqueue => ?_⟩)
  refine (hread s' (h.alike ha)).mono fun _ s'' hs'' => ?_
  obtain ⟨⟨htaken, ts, hqueue', hkinds⟩, hd⟩ := hs''
  rw [List.append_nil] at hqueue
  refine ⟨htaken, ts, [], ks', ?_, ?_, hd⟩
  · rw [hqueue', hqueue, List.append_nil]
  · rw [hkinds]

/-- A token is read that is not settled yet. -/
theorem Nears.delivers_word (h : Nears N s stack level rest m allowed) (hlt : n < n')
    (hread : ∀ s', Nears N s' stack level rest m allowed → Leads b readToken s' fun _ s'' =>
      s''.taken = s'.taken ∧ ∃ t, s''.queue = s'.queue ++ [t] ∧ Delivers b N n s'' [t] ks) :
    Delivers b N n' s [] ks := by
  refine Delivers.mono (Nat.succ_le_of_lt hlt) (Or.inr ⟨h.sound, Nat.zero_le 1, fun s' q ha hqueue => ?_⟩)
  refine (hread s' (h.alike ha)).mono fun _ s'' hs'' => ?_
  obtain ⟨htaken, t, hqueue', hd⟩ := hs''
  rw [List.append_nil] at hqueue
  refine ⟨htaken, [], [t], ks, ?_, rfl, hd⟩
  rw [hqueue', hqueue, List.append_nil]

/-- Where reading fails, nothing is delivered that could be wrong. -/
theorem Stands.delivers_never {q : List Token} {t : Token} {k : PendingKey}
    (h : Stands N s stack level allowed rest m) (hp : Pending s q t k) (hlt : 0 < n')
    (hread : ∀ s' q', Stands N s' stack level allowed rest m → Pending s' q' t k →
      Leads b readToken s' fun _ _ => False) : Delivers b N n' s [t] ks := by
  obtain ⟨n', rfl⟩ : ∃ p, n' = p + 1 := ⟨n' - 1, by omega⟩
  refine Or.inr ⟨⟨_, _, _, _, _, h⟩, Nat.le_refl 1, fun s' q' ha hqueue => ?_⟩
  exact (hread s' q' (h.alike ha) (hp.alike ha hqueue)).mono fun _ _ hfalse => hfalse.elim

/-- A token is settled by what is read behind it. -/
theorem Stands.delivers_colon {q : List Token} {t : Token} {k : PendingKey} {ks₁ ks₂ : List TokenKind}
    (h : Stands N s stack level allowed rest m) (hp : Pending s q t k) (hlt : n < n')
    (hread : ∀ s' q', Stands N s' stack level allowed rest m → Pending s' q' t k →
      Leads b readToken s' fun _ s'' => s''.taken = s'.taken ∧
        ∃ us vs : List Token, s''.queue = q' ++ us ++ t :: vs ∧ us.map (·.kind) = ks₁ ∧
          vs.map (·.kind) = ks₂ ∧ Delivers b N n s'' [] ks') :
    Delivers b N n' s [t] (ks₁ ++ t.kind :: ks₂ ++ ks') := by
  refine Delivers.mono (Nat.succ_le_of_lt hlt)
    (Or.inr ⟨⟨_, _, _, _, _, h⟩, Nat.le_refl 1, fun s' q' ha hqueue => ?_⟩)
  refine (hread s' q' (h.alike ha) (hp.alike ha hqueue)).mono fun _ s'' hs'' => ?_
  obtain ⟨htaken, us, vs, hqueue', rfl, rfl, hd⟩ := hs''
  refine ⟨htaken, us ++ t :: vs, [], ks', ?_, ?_, hd⟩
  · rw [hqueue', List.append_nil, List.append_assoc]
  · rw [List.map_append, List.map_cons]

end Delivers

/-! ## Handing out -/

/-- The first kinds that the stream hands out are `ks`. -/
def Yields (b : Prop) (N : Nat) (s : TokenStream) (ks : List TokenKind) : Prop :=
  ∃ n q r ks', n + 3 < N ∧ s.queue = q ++ r ∧ Delivers b N n s r ks' ∧ ks <+: q.map (·.kind) ++ ks'

/-- The stream is about to hand out a token, and then the kinds `ks`. -/
structure Holds (b : Prop) (N : Nat) (s : TokenStream) (t : Token) (ks : List TokenKind) : Prop where
  head : s.queue.head? = some t
  long : 3 ≤ s.queue.length
  yields : Yields b N s (t.kind :: ks)

section Yields

variable {b : Prop} {N n : Nat} {s : TokenStream} {q r : List Token} {t : Token} {k : TokenKind}
  {ks ks' : List TokenKind}

theorem Yields.sound (h : Yields b N s ks) : Sound N s := by
  obtain ⟨_, _, _, _, _, _, hd, _⟩ := h
  exact hd.sound

/-- Tokens are read until the first can be handed out: either it can already, or another token is
read. -/
theorem leads_readAhead_succ {Q : Unit → TokenStream → Prop} (fuel : Nat) (h : Sound N s)
    (hready : ∀ s', Alike s s' → s'.queue = s.queue → 3 ≤ s.queue.length → Q () s')
    (hread : ∀ s', Alike s s' → s'.queue = s.queue →
      (3 ≤ s.queue.length → ∃ k ∈ s.keys, k.possible = true) →
      Leads b readToken s' fun _ s'' => Leads b (readAhead fuel) s'' Q) :
    Leads b (readAhead (fuel + 1)) s Q := by
  have hshort : s.queue.length < 3 → Leads b readToken s fun _ s'' => Leads b (readAhead fuel) s'' Q :=
    fun hlt => hread s (Alike.refl s) rfl fun hle => absurd hle (Nat.not_le_of_lt hlt)
  unfold readAhead
  simp only [leads_bind, leads_get]
  split
  -- with three tokens in the queue only a key that still stands asks for more
  · rename_i _ _ _ _ heq
    have hlong : 3 ≤ s.queue.length := by
      rw [heq]
      simp only [List.length_cons]
      omega
    cases s.watched.lookup s.taken with
    | none => exact hready s (Alike.refl s) rfl hlong
    | some level =>
      rw [leads_bind]
      refine leads_keyStands_alike h level fun stands s' ha hqueue hkey => ?_
      cases stands with
      | false => exact hready s' ha hqueue hlong
      | true =>
        simp only [leads_pure, Bool.not_true, Bool.not_false, if_true, leads_bind]
        exact hread s' ha hqueue fun _ => hkey rfl
  · rename_i hnot
    simp only [leads_pure, Bool.not_false, if_true, leads_bind]
    refine hshort ?_
    rcases hq : s.queue with _ | ⟨a, _ | ⟨b, _ | ⟨c, tl⟩⟩⟩
    · exact Nat.succ_pos 2
    · exact Nat.succ_lt_succ (Nat.succ_pos 1)
    · exact Nat.lt_succ_self 2
    · exact absurd hq (hnot a b c tl)

/-- At the end of the stream at most three more tokens are read. -/
theorem leads_readAhead_ended (fuel : Nat) : ∀ {s : TokenStream}, 3 - s.queue.length < fuel →
    Ended N s → ks <+: s.queue.map (·.kind) → Leads b (readAhead fuel) s fun _ s' =>
      3 ≤ s'.queue.length ∧ Ended N s' ∧ ks <+: s'.queue.map (·.kind) := by
  induction fuel with
  | zero => exact fun hlt => absurd hlt (Nat.not_lt_zero _)
  | succ fuel ih =>
    intro s hfuel hended hpre
    refine leads_readAhead_succ fuel hended.sound (fun s' ha hqueue hlong => ?_) fun s' ha hqueue hkey => ?_
    · rw [hqueue]
      exact ⟨hlong, hended.alike ha, hpre⟩
    · have hshort : s.queue.length < 3 := by
        refine Nat.lt_of_not_le fun hlong => ?_
        obtain ⟨k, hk, hpossible⟩ := hkey hlong
        rw [hended.lapsed k hk] at hpossible
        cases hpossible
      refine ((hended.alike ha).leads_readToken).mono fun _ s'' hs'' => ?_
      obtain ⟨hended'', -, ts, hqueue'', hkinds⟩ := hs''
      have hlength : s''.queue.length = s.queue.length + 1 := by
        have hone := congrArg List.length hkinds
        rw [List.length_map, List.length_singleton] at hone
        rw [hqueue'', hqueue, List.length_append, hone]
      refine ih (by omega) hended'' ?_
      rw [hqueue'', hqueue, List.map_append]
      exact hpre.trans (List.prefix_append _ _)

/-- Tokens are read ahead as long as a pending key asks for it. -/
theorem leads_readAhead (n : Nat) : ∀ {s : TokenStream} {q r : List Token} {ks' : List TokenKind}
    {fuel : Nat}, n + 3 < fuel → n + 3 < N → s.queue = q ++ r → Delivers b N n s r ks' →
    ks <+: q.map (·.kind) ++ ks' →
    Leads b (readAhead fuel) s fun _ s' => 3 ≤ s'.queue.length ∧ Yields b N s' ks := by
  -- once the end is reached, the tokens that are left are all in the queue
  have hatEnd : ∀ {s : TokenStream} {q : List Token} {fuel : Nat}, 3 < fuel → 3 < N → s.queue = q ++ [] →
      Ended N s → ks <+: q.map (·.kind) ++ [] →
      Leads b (readAhead fuel) s fun _ s' => 3 ≤ s'.queue.length ∧ Yields b N s' ks := by
    intro s q fuel hfuel hN hqueue hended hpre
    rw [List.append_nil] at hqueue hpre
    refine (leads_readAhead_ended fuel (by omega) hended (hqueue ▸ hpre)).mono fun _ s' hs' => ?_
    refine ⟨hs'.1, 0, s'.queue, [], [], by omega, (List.append_nil _).symm, .of_ended hs'.2.1 0, ?_⟩
    rw [List.append_nil]
    exact hs'.2.2
  induction n with
  | zero =>
    intro s q r ks' fuel hfuel hN hqueue hd hpre
    obtain ⟨hended, rfl, rfl⟩ := hd
    exact hatEnd (by omega) (by omega) hqueue hended hpre
  | succ n ih =>
    intro s q r ks' fuel hfuel hN hqueue hd hpre
    have hd' := hd
    rcases hd with ⟨hended, rfl, rfl⟩ | ⟨hsound, -, hread⟩
    · exact hatEnd (by omega) (by omega) hqueue hended hpre
    · obtain ⟨fuel, rfl⟩ : ∃ f, fuel = f + 1 := ⟨fuel - 1, by omega⟩
      refine leads_readAhead_succ fuel hsound (fun s' ha hqueue' hlong => ?_) fun s' ha hqueue' _ => ?_
      · exact ⟨hqueue' ▸ hlong, n + 1, q, r, ks', hN, hqueue'.trans hqueue, hd'.alike ha, hpre⟩
      · refine (hread s' q ha (hqueue'.trans hqueue)).mono fun _ s'' hs'' => ?_
        obtain ⟨-, ts, r', ks'', hqueue'', rfl, hd''⟩ := hs''
        refine ih (q := q ++ ts) (by omega) (by omega) hqueue'' hd'' ?_
        rwa [List.map_append, List.append_assoc]

/-- A stream with enough tokens in its queue is about to hand out the first. -/
theorem Yields.holds (h : Yields b N s (k :: ks)) (hlong : 3 ≤ s.queue.length) :
    ∃ t q, s.queue = t :: q ∧ t.kind = k ∧ Holds b N s t ks := by
  obtain ⟨n, q, r, ks', hN, hqueue, hd, hpre⟩ := h
  obtain ⟨t, q, rfl⟩ := hd.settled hqueue hlong
  obtain ⟨rfl, -⟩ := List.cons_prefix_cons.1 hpre
  rw [List.cons_append] at hqueue
  exact ⟨t, q ++ r, hqueue, rfl, by rw [hqueue]; rfl, hlong, n, t :: q, r, ks', hN, hqueue, hd, hpre⟩

/-- The next token is looked at. -/
theorem Yields.leads_peek (h : Yields b N s (k :: ks)) :
    Leads b peek s fun t s' => t.kind = k ∧ Holds b N s' t ks := by
  obtain ⟨_, _, _, _, _, hs⟩ := h.sound
  obtain ⟨n, q, r, ks', hN, hqueue, hd, hpre⟩ := h
  unfold peek
  simp only [leads_bind, leads_get, hs.shows.bound]
  refine (leads_readAhead n hN hN hqueue hd hpre).mono fun _ s' hs' => ?_
  obtain ⟨t, q', hqueue', hkind, hholds⟩ := hs'.2.holds hs'.1
  rw [hqueue', leads_pure]
  exact ⟨hkind, hholds⟩

/-- The first token of a text is looked at. -/
theorem leads_peek_start {rest : List Char} {m : Mark} (hstarted : s.started = false)
    (hcomments : s.comments = []) (hstack : s.indent :: s.indents = [-1]) (hlevel : s.flowLevel = 0)
    (hqueue : s.queue = []) (hat : At N s.cursor rest m 0) (hn : n + 4 < N)
    (hgo : ∀ {s' : TokenStream}, Stands N s' [-1] 0 true rest m → Delivers b N n s' [] ks) :
    Leads b peek s fun t s' => t.kind = .streamStart ∧ Holds b N s' t ks := by
  obtain ⟨fuel, hfuel⟩ : ∃ fuel, N = fuel + 1 := ⟨N - 1, by omega⟩
  have hbound : s.cursor.bound = fuel + 1 := hat.bound.trans hfuel
  unfold peek
  simp only [leads_bind, leads_get, hbound]
  rw [readAhead]
  simp only [leads_bind, leads_get, hqueue, leads_pure, Bool.not_false, if_true]
  refine (leads_readToken_start hstarted hcomments hstack hlevel hat).mono fun _ s₁ hs₁ => ?_
  obtain ⟨hs₁, -, ts, hqueue₁, hkinds⟩ := hs₁
  rw [hqueue, List.nil_append, ← List.append_nil ts] at hqueue₁
  have hpre : .streamStart :: ks <+: ts.map (·.kind) ++ ks := by rw [hkinds]; exact List.prefix_rfl
  refine (leads_readAhead n (by omega) (by omega) hqueue₁ (hgo hs₁) hpre).mono fun _ s' hs' => ?_
  obtain ⟨t, q', hqueue', hkind, hholds⟩ := hs'.2.holds hs'.1
  rw [hqueue', leads_pure]
  exact ⟨hkind, hholds⟩

theorem leads_claim {Q : List Comment → TokenStream → Prop} (h : Sound N s) (t : Token) (hgo : Q [] s) :
    Leads b (claim t) s Q := by
  obtain ⟨_, _, _, _, _, hs⟩ := h
  have hsame : { s with comments := [] } = s := by rw [← hs.comments]
  unfold claim
  rw [leads_modifyGet, hs.comments]
  exact hsame.symm ▸ hgo

/-- The next token is taken. -/
theorem Holds.leads_skip (h : Holds b N s t ks) : Leads b skip s fun _ s' => Yields b N s' ks := by
  obtain ⟨hhead, hlong, n, q, r, ks', hN, hqueue, hd, hpre⟩ := h
  obtain ⟨t', q', rfl⟩ := hd.settled hqueue hlong
  unfold skip
  rw [leads_modify]
  refine ⟨n, q', r, ks', hN, ?_, ?_, ?_⟩
  · show s.queue.drop 1 = q' ++ r
    rw [hqueue]
    rfl
  · refine hd.alike ⟨rfl, rfl, rfl, rfl, rfl, rfl, ?_, rfl, id, id, fun _ hk _ => hk⟩
    show s.taken + 1 + (s.queue.drop 1).length = s.taken + s.queue.length
    rw [List.length_drop]
    omega
  · exact (List.cons_prefix_cons.1 hpre).2

end Yields

end TreeLang.Yaml.TokenStream
