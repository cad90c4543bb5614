/-! # Sorted dictionaries

A dictionary is a list of named values in ascending order of the names, without repetition.
Insertion keeps that order and replaces the value of a name that is there already.
-/
namespace MobileCode

abbrev Dict (β : Type) := List (String × β)

namespace Dict
variable {β : Type}

def find? (d : Dict β) (name : String) : Option β := d.lookup name

def contains (d : Dict β) (name : String) : Bool := (d.find? name).isSome

def insert (name : String) (value : β) : Dict β → Dict β
  | [] => [(name, value)]
  | (n, v) :: rest =>
    if name < n then (name, value) :: (n, v) :: rest
    else if name = n then (name, value) :: rest
    else (n, v) :: insert name value rest

def erase (name : String) (d : Dict β) : Dict β := d.filter (·.1 ≠ name)

/-- Later entries replace earlier ones of the same name. -/
def ofList (entries : List (String × β)) : Dict β :=
  entries.foldl (fun d (n, v) => insert n v d) []

def names (d : Dict β) : List String := d.map (·.1)

/-- Ascending names, which insertion keeps. -/
def Sorted (d : Dict β) : Prop := d.Pairwise (fun a b => a.1 < b.1)

end Dict
end MobileCode
