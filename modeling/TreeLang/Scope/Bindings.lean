import TreeLang.Text.Basic

/-!
# Bindings

Bindings give meanings to names. A name is bound at most once: binding it again replaces its
meaning.
-/

set_option autoImplicit false

namespace TreeLang

/-- Names and what they are bound to. -/
abbrev Bindings (α : Type) := List (Text × α)

namespace Bindings

variable {α : Type}

/-- What a name is bound to. -/
def get? (b : Bindings α) (x : Text) : Option α := b.lookup x

/-- Whether a name is bound. -/
def binds (b : Bindings α) (x : Text) : Bool := (b.get? x).isSome

/-- Bind a name, in the place of what it was bound to before. -/
def set : Bindings α → Text → α → Bindings α
  | [], x, a => [(x, a)]
  | (y, b) :: r, x, a => if y = x then (y, a) :: r else (y, b) :: set r x a

/-- The names that are bound. -/
def names (b : Bindings α) : List Text := b.map (·.1)

/-- The names that are bound, byte by byte in order. -/
def sortedNames (b : Bindings α) : List Text := b.names.mergeSort Text.le

end Bindings

end TreeLang
