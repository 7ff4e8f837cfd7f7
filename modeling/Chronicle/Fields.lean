/-!
# Named fields

The fields of an object, a map or a record, in ascending order of their names and with each
name once. Names are compared character by character, which is also the order of their bytes.
-/
namespace Chronicle

abbrev Fields (α : Type) := List (String × α)

namespace Fields

variable {α : Type}

/-- Sets the field `name`, in place of an earlier value. -/
def insert (name : String) (value : α) : Fields α → Fields α
  | [] => [(name, value)]
  | (other, old) :: rest =>
    match compare name other with
    | .lt => (name, value) :: (other, old) :: rest
    | .eq => (name, value) :: rest
    | .gt => (other, old) :: insert name value rest

/-- Of two pairs with one name the later counts. -/
def ofList (pairs : List (String × α)) : Fields α :=
  pairs.foldl (fun fields pair => fields.insert pair.1 pair.2) []

def find? (fields : Fields α) (name : String) : Option α := fields.lookup name

def Ordered (fields : Fields α) : Prop := fields.Pairwise fun a b => a.1 < b.1

end Fields
end Chronicle
