import Chronicle.Payload.Schema

/-!
# The text of a data schema

A schema is kept as JSON: a plain one is its name as a string, the others are an object with
the one member that names them. A record has the members `name` and `fields`, in either order
or as an array of the two; members of other names are passed over.
-/
namespace Chronicle.Payload.Schema

open Json (Term)

mutual

def term : Schema → Term
  | .null => Term.text "Null"
  | .bool => Term.text "Bool"
  | .int => Term.text "Int"
  | .float => Term.text "Float"
  | .string => Term.text "String"
  | .bytes => Term.text "Bytes"
  | .optional inner => .object [(Utf8.encode "Optional", term inner)]
  | .array inner => .object [(Utf8.encode "Array", term inner)]
  | .map inner => .object [(Utf8.encode "Map", term inner)]
  | .record name fields =>
    .object [(Utf8.encode "Record",
      .object [(Utf8.encode "name", Term.text name),
        (Utf8.encode "fields", .object (fieldTerms fields))])]

def fieldTerms : List (String × Schema) → List (Bytes × Term)
  | [] => []
  | (name, schema) :: fields => (Json.Quoted.write name, term schema) :: fieldTerms fields

end

/-- The stored text of a schema. -/
def write (schema : Schema) : Bytes := schema.term.write

def text (schema : Schema) : String := Utf8.lossy schema.write

/-! ## Reading -/

def plain? (name : String) : Option Schema :=
  match name with
  | "Null" => some .null
  | "Bool" => some .bool
  | "Int" => some .int
  | "Float" => some .float
  | "String" => some .string
  | "Bytes" => some .bytes
  | _ => none

/-- The schema around another one. -/
def wrapper? (name : String) : Option (Schema → Schema) :=
  match name with
  | "Optional" => some .optional
  | "Array" => some .array
  | "Map" => some .map
  | _ => none

/-- The one member of that name. -/
def single? (name : String) (members : List (String × Term)) : Option Term :=
  match Term.allNamed name members with
  | [content] => some content
  | _ => none

/-- The name and the fields of a record. -/
def recordParts? : Term → Option (Term × Term)
  | .array [name, fields] => some (name, fields)
  | .object members => do
    let members ← Term.named? members
    return (← single? "name" members, ← single? "fields" members)
  | _ => none

/-- The schema a term stands for when `depth` more levels of nesting are allowed. -/
def ofTerm? : Nat → Term → Option Schema
  | _, .string raw => (Json.Quoted.read? raw).bind plain?
  | depth + 1, .object [(key, content)] => do
    let name ← Json.Quoted.read? key
    match plain? name, content with
    | some schema, .null => some schema
    | some _, _ => none
    | none, _ =>
      match wrapper? name with
      | some wrap => wrap <$> ofTerm? depth content
      | none =>
        match depth with
        | inner + 2 =>
          if name = "Record" then do
            let (name, fields) ← recordParts? content
            let name ← name.string?
            match fields with
            | .object members =>
              let members ← Term.named? members
              let fields ← members.mapM fun member => do
                return (member.1, ← ofTerm? inner member.2)
              return .record name (Fields.ofList fields)
            | _ => none
          else none
        | _ => none
  | _, _ => none

def parse? (source : Bytes) : Option Schema :=
  (Term.parse? source).bind (ofTerm? Json.nestingLimit)

end Chronicle.Payload.Schema
