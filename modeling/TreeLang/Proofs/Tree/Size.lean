import Mathlib
import TreeLang.Tree.Encode

/-!
# The size of a tree

The trees directly inside a tree are smaller than it, so statements about trees can be shown from
the inside out (`Tree.induct_children`).

The count that decides whether a tree is written on one line stops in the middle of a tree once it
is above the limit, and so do the counts of the trees inside. It still tells on which side of the
limit the size is, and the size itself up to the limit (`Tree.tells_cappedSize`), because a count
and a size that are both above the limit stay so when more is added.
-/

set_option autoImplicit false

namespace TreeLang.Tree

theorem size_eq (t : Tree) : t.size = 1 + sizeAll t.children := by
  cases t <;> simp only [size, sizeAll, children] <;> omega

theorem size_pos (t : Tree) : 0 < t.size := by
  rw [size_eq]
  omega

theorem size_le_sizeAll {t : Tree} : ∀ {ts : List Tree}, t ∈ ts → t.size ≤ sizeAll ts
  | u :: us, h => by
    rw [sizeAll]
    rcases List.mem_cons.1 h with rfl | h
    · exact Nat.le_add_right _ _
    · exact Nat.le_trans (size_le_sizeAll h) (Nat.le_add_left _ _)

/-- A child is smaller. -/
theorem size_lt_of_mem_children {t u : Tree} (h : u ∈ t.children) : u.size < t.size := by
  have hle := size_le_sizeAll h
  rw [size_eq t]
  omega

/-- A statement holds of all trees if it holds of every tree of which it holds inside. -/
theorem induct_children {P : Tree → Prop} (h : ∀ t : Tree, (∀ u ∈ t.children, P u) → P t) (t : Tree) :
    P t := by
  generalize hn : t.size = n
  induction n using Nat.strong_induction_on generalizing t with
  | h n ih =>
    subst hn
    apply h
    intro u hu
    exact ih u.size (size_lt_of_mem_children hu) u rfl

/-! ## Small trees -/

/-- A count tells a size as far as the limit: it is the size, or both are above the limit. -/
def Tells (count size : Nat) : Prop := count = size ∨ flowLimit < count ∧ flowLimit < size

namespace Tells

variable {count size : Nat}

/-- A count that tells a size tells whether it is within the limit. -/
theorem le_iff (h : Tells count size) : count ≤ flowLimit ↔ size ≤ flowLimit := by
  rcases h with rfl | ⟨hcount, hsize⟩
  · exact Iff.rfl
  · omega

/-- Within the limit the count is the size. -/
theorem eq_of_le (h : Tells count size) (hsize : size ≤ flowLimit) : count = size := by
  rcases h with rfl | ⟨-, hlt⟩
  · rfl
  · omega

/-- A count that goes on only up to the limit still tells the sum. -/
theorem addCapped {more added : Nat} (h : Tells count size) (hmore : Tells more added) :
    Tells (addCapped count more) (size + added) := by
  unfold Tree.addCapped
  by_cases hcount : flowLimit < count
  · rw [if_pos hcount]
    have hsize : ¬ size ≤ flowLimit := mt h.le_iff.2 (Nat.not_le_of_lt hcount)
    exact Or.inr ⟨hcount, by omega⟩
  · -- up to here the count is the size, so only what is added may be told inexactly
    rw [if_neg hcount]
    have hexact : count = size := h.eq_of_le (h.le_iff.1 (Nat.le_of_not_lt hcount))
    rcases hmore with rfl | ⟨hover, hadded⟩
    · exact Or.inl (congrArg (· + more) hexact)
    · exact Or.inr ⟨by omega, by omega⟩

end Tells

theorem cappedFrom_nil (count : Nat) : cappedFrom count [] = count := by
  rw [cappedFrom]

/-- Beyond the limit nothing more is counted. -/
theorem cappedFrom_of_lt {count : Nat} (h : flowLimit < count) (ts : List Tree) :
    cappedFrom count ts = count := by
  cases ts with
  | nil => exact cappedFrom_nil count
  | cons t ts => rw [cappedFrom, if_pos h]

theorem cappedFrom_cons (count : Nat) (t : Tree) (ts : List Tree) :
    cappedFrom count (t :: ts) = cappedFrom (addCapped count t.cappedSize) ts := by
  rw [cappedFrom]
  unfold addCapped
  by_cases h : flowLimit < count
  · rw [if_pos h, if_pos h, cappedFrom_of_lt h]
  · rw [if_neg h, if_neg h]

/-- The trees inside a tree are counted from one on, in every form. -/
theorem cappedSize_eq (t : Tree) : t.cappedSize = cappedFrom 1 t.children := by
  cases t <;> simp only [cappedSize, children, cappedFrom_cons, cappedFrom_nil]

/-- Counting on over more trees tells the size of all of them. -/
theorem Tells.cappedFrom {ts : List Tree} (hts : ∀ t ∈ ts, Tells t.cappedSize t.size) :
    ∀ {count size : Nat}, Tells count size → Tells (cappedFrom count ts) (size + sizeAll ts) := by
  induction ts with
  | nil =>
    intro count size h
    rwa [cappedFrom_nil, sizeAll]
  | cons t ts ih =>
    intro count size h
    obtain ⟨ht, hts⟩ := List.forall_mem_cons.1 hts
    rw [cappedFrom_cons, sizeAll, ← Nat.add_assoc]
    exact ih hts (h.addCapped ht)

/-- The count that stops above the limit tells the number of trees. -/
theorem tells_cappedSize (t : Tree) : Tells t.cappedSize t.size := by
  induction t using induct_children with
  | h t ih =>
    rw [cappedSize_eq, size_eq]
    exact Tells.cappedFrom ih (Or.inl rfl)

/-- A tree is written on one line exactly if it has at most as many trees in it as the limit
says. -/
theorem isSmall_iff {t : Tree} : t.isSmall ↔ t.size ≤ flowLimit := by
  rw [isSmall, decide_eq_true_iff]
  exact (tells_cappedSize t).le_iff

end TreeLang.Tree
