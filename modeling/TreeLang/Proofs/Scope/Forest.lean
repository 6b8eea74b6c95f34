import Mathlib
import TreeLang.Scope.Forest

/-!
# The shape of a forest

A forest that is built frame by frame has every parent before its children (`Forest.Built.ordered`).
So the numbers from a frame up to its root fall, no frame is met twice, and the path of a frame
consists of the frame and the frames above it (`Forest.mem_path_iff`).

Putting a chain back in the place of the chain of a frame replaces the frames on the path, one by
one, and changes nothing else: no other frame and no parent.
-/

set_option autoImplicit false

namespace TreeLang.Forest

/-! ## Building -/

/-- The forests that can be built: frames are added as roots or below frames that are there, and
what a frame holds may change in any way. -/
inductive Built : Forest → Prop
  | empty : Built []
  | root {forest : Forest} : Built forest → Built (forest.grow none)
  | child {forest : Forest} {p : Nat} :
      Built forest → p < forest.length → Built (forest.grow (some p))
  | write {forest : Forest} (n : Nat) (f : Frame) : Built forest → Built (forest.setFrame n f)

/-- Every parent comes before its children. -/
def Ordered (forest : Forest) : Prop := ∀ {n p : Nat}, forest.parentOf n = some p → p < n

/-- The second frame is the parent of the first one, or above that. -/
def Above (forest : Forest) (n a : Nat) : Prop :=
  Relation.TransGen (fun n p => forest.parentOf n = some p) n a

theorem parentOf_append (forest : Forest) (m : Member) (n : Nat) :
    parentOf (forest ++ [m]) n =
      if n < forest.length then forest.parentOf n else if n = forest.length then m.parent else none := by
  unfold parentOf
  by_cases h : n < forest.length
  · rw [if_pos h, List.getElem?_append_left h]
  · rw [if_neg h, List.getElem?_append_right (by omega)]
    by_cases hn : n = forest.length
    · simp [hn]
    · rw [if_neg hn, List.getElem?_eq_none (by simp; omega)]
      rfl

/-- Putting a frame in a place changes the frame of one member. -/
theorem setFrame_getElem? (forest : Forest) (n i : Nat) (f : Frame) :
    (forest.setFrame n f)[i]? =
      (forest[i]?).map fun m => if n = i then { m with frame := f } else m := by
  unfold setFrame
  rw [List.getElem?_modify]
  cases forest[i]? with
  | none => rfl
  | some m => by_cases h : n = i <;> simp [h]

theorem parentOf_setFrame (forest : Forest) (n i : Nat) (f : Frame) :
    (forest.setFrame n f).parentOf i = forest.parentOf i := by
  unfold parentOf
  rw [setFrame_getElem?]
  cases forest[i]? with
  | none => rfl
  | some m => by_cases h : n = i <;> simp [h]

theorem length_setFrame (forest : Forest) (n : Nat) (f : Frame) :
    (forest.setFrame n f).length = forest.length := by
  unfold setFrame
  rw [List.length_modify]

/-- In a forest that was built parents come first: a new frame is the last one, and its parent is
there already. -/
theorem Built.ordered {forest : Forest} (h : Built forest) : Ordered forest := by
  induction h with
  | empty =>
    intro n p hp
    simp [parentOf] at hp
  | @root forest _ ih =>
    intro n p hp
    unfold grow at hp
    rw [parentOf_append] at hp
    split at hp
    · exact ih hp
    · split at hp <;> cases hp
  | @child forest q _ hq ih =>
    intro n p hp
    unfold grow at hp
    rw [parentOf_append] at hp
    split at hp
    · exact ih hp
    · split at hp
      · cases hp
        omega
      · cases hp
  | write n f _ ih =>
    intro i p hp
    rw [parentOf_setFrame] at hp
    exact ih hp

/-! ## Paths -/

theorem pathIn_succ {forest : Forest} {n : Nat} (hn : n < forest.length) (room : Nat) :
    pathIn forest (room + 1) n =
      n :: (match forest.parentOf n with
        | none => []
        | some p => pathIn forest room p) := by
  rw [pathIn, parentOf, List.getElem?_eq_getElem hn]
  simp only [Option.bind_some]
  cases (forest[n]).parent <;> rfl

/-- Room for more frames than there are up to the root is room enough. -/
theorem pathIn_eq_path {forest : Forest} (ho : Ordered forest) :
    ∀ {room n : Nat}, n < room → n < forest.length → pathIn forest room n = forest.path n := by
  intro room
  induction room using Nat.strongRecOn with
  | ind room ih =>
    intro n hroom hn
    obtain ⟨room, rfl⟩ : ∃ k, room = k + 1 := ⟨room - 1, by omega⟩
    rw [path, pathIn_succ hn, pathIn_succ hn]
    cases hp : forest.parentOf n with
    | none => rfl
    | some p =>
      have hpn := ho hp
      by_cases heq : n = room
      · rw [heq]
      · have h1 := ih room (by omega) (n := p) (by omega) (by omega)
        have h2 := ih n (by omega) (n := p) (by omega) (by omega)
        simp only [h1, h2]

/-- The way up from a frame starts with it and goes on from its parent. -/
theorem path_eq {forest : Forest} (ho : Ordered forest) {n : Nat} (hn : n < forest.length) :
    forest.path n =
      n :: (match forest.parentOf n with
        | none => []
        | some p => forest.path p) := by
  rw [path, pathIn_succ hn]
  cases hp : forest.parentOf n with
  | none => rfl
  | some p =>
    have hpn := ho hp
    simp only [pathIn_eq_path ho hpn (by omega)]

/-- What is above a frame is its parent or above that. -/
theorem above_iff {forest : Forest} {n a : Nat} :
    forest.Above n a ↔ ∃ p, forest.parentOf n = some p ∧ (a = p ∨ forest.Above p a) := by
  unfold Above
  rw [Relation.TransGen.head'_iff]
  constructor
  · rintro ⟨p, hp, h⟩
    exact ⟨p, hp, by rwa [Relation.reflTransGen_iff_eq_or_transGen] at h⟩
  · rintro ⟨p, hp, h⟩
    exact ⟨p, hp, by rwa [Relation.reflTransGen_iff_eq_or_transGen]⟩

/-- The frames above a frame are those on its path after it. -/
theorem mem_tail_path_iff {forest : Forest} (ho : Ordered forest) :
    ∀ {n a : Nat}, n < forest.length → (a ∈ (forest.path n).tail ↔ forest.Above n a) := by
  intro n
  induction n using Nat.strongRecOn with
  | ind n ih =>
    intro a hn
    rw [path_eq ho hn, above_iff]
    cases hp : forest.parentOf n with
    | none => simp
    | some p =>
      have hpn := ho hp
      have hpl : p < forest.length := by omega
      have ihp := ih p hpn (a := a) hpl
      simp only [List.tail_cons, Option.some.injEq, exists_eq_left']
      rw [← ihp, path_eq ho hpl, List.mem_cons, List.tail_cons]

/-- On the way up from a frame are the frame and those above it. -/
theorem mem_path_iff {forest : Forest} (ho : Ordered forest) {n a : Nat} (hn : n < forest.length) :
    a ∈ forest.path n ↔ a = n ∨ forest.Above n a := by
  rw [← mem_tail_path_iff ho hn, path_eq ho hn, List.mem_cons, List.tail_cons]

/-- Frames above a frame were made before it. -/
theorem Above.lt {forest : Forest} (ho : Ordered forest) {n a : Nat} (h : forest.Above n a) :
    a < n := by
  induction h with
  | single h => exact ho h
  | tail _ h ih => exact Nat.lt_trans (ho h) ih

/-- No frame is twice on a way up. -/
theorem nodup_path {forest : Forest} (ho : Ordered forest) :
    ∀ {n : Nat}, n < forest.length → (forest.path n).Nodup := by
  intro n
  induction n using Nat.strongRecOn with
  | ind n ih =>
    intro hn
    have htail := fun a => mem_tail_path_iff ho (a := a) hn
    rw [path_eq ho hn] at htail ⊢
    rw [List.nodup_cons]
    refine ⟨fun hmem => ?_, ?_⟩
    · exact absurd (((htail n).1 hmem).lt ho) (Nat.lt_irrefl n)
    · cases hp : forest.parentOf n with
      | none => exact List.nodup_nil
      | some p =>
        have hpn := ho hp
        exact ih p hpn (by omega)

theorem lt_of_mem_path {forest : Forest} (ho : Ordered forest) {n a : Nat}
    (hn : n < forest.length) (h : a ∈ forest.path n) : a < forest.length := by
  rcases (mem_path_iff ho hn).1 h with rfl | h
  · exact hn
  · exact Nat.lt_trans (h.lt ho) hn

/-! ## Chains -/

theorem frame_eq {forest : Forest} {n : Nat} (hn : n < forest.length) :
    (forest[n]?).map Member.frame = some (forest.frame n) := by
  rw [frame, List.getElem?_eq_getElem hn]
  rfl

/-- The chain of a frame consists of the frames on its path. -/
theorem chain_eq_map {forest : Forest} (ho : Ordered forest) {n : Nat} (hn : n < forest.length) :
    forest.chain n = (forest.path n).map forest.frame := by
  unfold chain
  rw [← List.filterMap_eq_map]
  refine List.filterMap_congr fun k hk => ?_
  exact frame_eq (lt_of_mem_path ho hn hk)

/-- The path of a frame is a matter of the parents alone. -/
theorem path_congr {forest forest' : Forest} (ho : Ordered forest)
    (hl : forest'.length = forest.length) (hp : ∀ i, forest'.parentOf i = forest.parentOf i) :
    ∀ {n : Nat}, n < forest.length → forest'.path n = forest.path n := by
  have ho' : Ordered forest' := by
    intro n p h
    rw [hp] at h
    exact ho h
  intro n
  induction n using Nat.strongRecOn with
  | ind n ih =>
    intro hn
    rw [path_eq ho hn, path_eq ho' (by omega), hp]
    cases h : forest.parentOf n with
    | none => rfl
    | some p =>
      have hpn := ho h
      simp only [ih p hpn (by omega)]

/-! ## Putting frames back -/

theorem frame_setFrame_self {forest : Forest} {n : Nat} (hn : n < forest.length) (f : Frame) :
    (forest.setFrame n f).frame n = f := by
  rw [frame, setFrame_getElem?, List.getElem?_eq_getElem hn]
  simp

theorem parentOf_setFrames (i : Nat) :
    ∀ (ns : List Nat) (forest : Forest) (c : Chain),
      (forest.setFrames ns c).parentOf i = forest.parentOf i
  | [], _, _ => rfl
  | _ :: _, _, [] => rfl
  | n :: ns, forest, f :: fs => by
    rw [setFrames, parentOf_setFrames i ns, parentOf_setFrame]

theorem length_setFrames :
    ∀ (ns : List Nat) (forest : Forest) (c : Chain), (forest.setFrames ns c).length = forest.length
  | [], _, _ => rfl
  | _ :: _, _, [] => rfl
  | n :: ns, forest, f :: fs => by rw [setFrames, length_setFrames ns, length_setFrame]

/-- Frames that are not named are not changed. -/
theorem setFrames_getElem?_of_not_mem {i : Nat} :
    ∀ (ns : List Nat) (forest : Forest) (c : Chain), i ∉ ns →
      (forest.setFrames ns c)[i]? = forest[i]?
  | [], _, _, _ => rfl
  | _ :: _, _, [], _ => rfl
  | n :: ns, forest, f :: fs, h => by
    have hn : n ≠ i := fun hn => h (hn ▸ List.mem_cons_self)
    rw [setFrames, setFrames_getElem?_of_not_mem ns _ fs fun hi => h (List.mem_cons_of_mem n hi),
      setFrame_getElem?]
    cases forest[i]? <;> simp [hn]

/-- Frames that are not on the way stay as they are. -/
theorem frame_setFrames_of_not_mem {i : Nat} (ns : List Nat) (forest : Forest) (c : Chain)
    (h : i ∉ ns) : (forest.setFrames ns c).frame i = forest.frame i := by
  rw [frame, frame, setFrames_getElem?_of_not_mem ns forest c h]

/-- Along the way stand the frames that were written there. -/
theorem map_frame_setFrames : ∀ (ns : List Nat) (forest : Forest) (c : Chain), ns.Nodup →
    (∀ n ∈ ns, n < forest.length) → c.length = ns.length →
      ns.map (forest.setFrames ns c).frame = c
  | [], _, [], _, _, _ => rfl
  | [], _, _ :: _, _, _, h => by simp at h
  | _ :: _, _, [], _, _, h => by simp at h
  | n :: ns, forest, f :: fs, hd, hlt, hl => by
    obtain ⟨hn, hd⟩ := List.nodup_cons.1 hd
    have hlen : n < forest.length := hlt n List.mem_cons_self
    rw [setFrames, List.map_cons, frame_setFrames_of_not_mem ns _ fs hn, frame_setFrame_self hlen,
      map_frame_setFrames ns _ fs hd _ (by simpa using hl)]
    intro k hk
    rw [length_setFrame]
    exact hlt k (List.mem_cons_of_mem n hk)

/-- A chain that was put back is there. -/
theorem chain_setChain {forest : Forest} (ho : Ordered forest) {n : Nat} (hn : n < forest.length)
    {c : Chain} (hc : c.length = (forest.chain n).length) : (forest.setChain n c).chain n = c := by
  have hpath : (forest.setChain n c).path n = forest.path n :=
    path_congr ho (length_setFrames _ _ _) (fun i => parentOf_setFrames i _ _ _) hn
  have ho' : Ordered (forest.setChain n c) := by
    intro k p h
    rw [setChain, parentOf_setFrames] at h
    exact ho h
  have hn' : n < (forest.setChain n c).length := by
    rw [setChain, length_setFrames]
    exact hn
  rw [chain_eq_map ho' hn', hpath, setChain]
  refine map_frame_setFrames _ _ _ (nodup_path ho hn) (fun k hk => lt_of_mem_path ho hn hk) ?_
  rw [hc, chain_eq_map ho hn, List.length_map]

end TreeLang.Forest
