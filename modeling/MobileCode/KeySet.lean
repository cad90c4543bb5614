/-! # Sorted sets

A set is a list in ascending order of its elements' keys, without repetition. A key is a list of
texts, compared text by text.
-/
namespace MobileCode

/-- The texts that order and identify an element. -/
class Keyed (α : Type) where
  key : α → List String

instance : Keyed String := ⟨fun s => [s]⟩

abbrev KeySet (α : Type) := List α

namespace KeySet
variable {α : Type} [Keyed α]

def insert (x : α) : KeySet α → KeySet α
  | [] => [x]
  | y :: rest =>
    if Keyed.key x < Keyed.key y then x :: y :: rest
    else if Keyed.key x = Keyed.key y then y :: rest
    else y :: insert x rest

def ofList (xs : List α) : KeySet α := xs.foldl (fun s x => insert x s) []

def union (s t : KeySet α) : KeySet α := t.foldl (fun s x => insert x s) s

/-- Ascending keys, which insertion keeps. -/
def Sorted (s : KeySet α) : Prop := s.Pairwise (fun a b => Keyed.key a < Keyed.key b)

end KeySet
end MobileCode
