import Chronicle.Fields
import Chronicle.Json.Term

/-!
# JSON documents

A JSON text with its meaning: strings are text, numbers have a value, and an object holds its
fields in order of their names, the last of several members with one name counting.
-/
namespace Chronicle.Json

inductive Document
  | null
  | bool (b : Bool)
  | int (n : Int)
  | float (x : Binary64)
  | string (s : String)
  | array (items : List Document)
  | object (fields : List (String × Document))
  deriving Repr, Inhabited

/-- How deep arrays and objects may be nested in a text that is read. -/
def nestingLimit : Nat := 127

def Numeral.document? (n : Numeral) : Option Document :=
  match n.int? with
  | some i => some (.int i)
  | none => n.float?.map .float

namespace Document

mutual

/-- The document a term stands for when `depth` more levels of nesting are allowed. -/
def ofTerm? (depth : Nat) : Term → Option Document
  | .null => some .null
  | .bool b => some (.bool b)
  | .number n => n.document?
  | .string raw => (Quoted.read? raw).map .string
  | .array items => if depth = 0 then none else (ofItems? (depth - 1) items).map .array
  | .object members =>
    if depth = 0 then none
    else (ofMembers? (depth - 1) members).map fun pairs => .object (Fields.ofList pairs)

def ofItems? (depth : Nat) : List Term → Option (List Document)
  | [] => some []
  | item :: items => do
    let item ← ofTerm? depth item
    let items ← ofItems? depth items
    some (item :: items)

def ofMembers? (depth : Nat) : List (Bytes × Term) → Option (List (String × Document))
  | [] => some []
  | (key, value) :: members => do
    let name ← Quoted.read? key
    let value ← ofTerm? depth value
    let members ← ofMembers? depth members
    some ((name, value) :: members)

end

def parse? (bytes : Bytes) : Option Document := (Term.parse? bytes).bind (ofTerm? nestingLimit)

mutual

def toTerm : Document → Term
  | .null => .null
  | .bool b => .bool b
  | .int n => .number (Numeral.ofInt n)
  | .float x => if x.isFinite then .number (Numeral.ofFloat x) else .null
  | .string s => Term.text s
  | .array items => .array (itemTerms items)
  | .object fields => .object (memberTerms fields)

def itemTerms : List Document → List Term
  | [] => []
  | item :: items => toTerm item :: itemTerms items

def memberTerms : List (String × Document) → List (Bytes × Term)
  | [] => []
  | (name, value) :: members => (Quoted.write name, toTerm value) :: memberTerms members

end

def write (d : Document) : Bytes := d.toTerm.write

/-- The text of a document, for messages. -/
def text (d : Document) : String := Utf8.lossy d.write

end Document
end Chronicle.Json
