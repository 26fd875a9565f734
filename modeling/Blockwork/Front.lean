/-! # Reading from the front

Readers take a value off the front of a list and return what is behind it, with the proof that it
is shorter. The proof is what lets readers call each other until the list is used up.
-/

set_option autoImplicit false

namespace Blockwork

/-- A value read from the front of a list, and the rest of the list. -/
structure Front {τ : Type} (α : Type) (source : List τ) where
  value : α
  rest : List τ
  shorter : rest.length < source.length

def Front.after {τ α β : Type} {rest : List τ} (t : τ) (f : α → β) (r : Front α rest) :
    Front β (t :: rest) :=
  ⟨f r.value, r.rest, by have := r.shorter; simp only [List.length_cons]; omega⟩

end Blockwork
