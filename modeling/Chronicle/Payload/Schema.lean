import Chronicle.Payload.Value

/-!
# Data schemas

A data schema says which payload values fit and how they are stored: as JSON text whose shape
follows from the schema, so that reading it back gives the same kind of value. Every field of
a record may be missing, but no field outside the schema may be there.
-/
namespace Chronicle.Payload

inductive Schema
  | null
  | bool
  | int
  | float
  | string
  | bytes
  | optional (inner : Schema)
  | array (inner : Schema)
  | map (inner : Schema)
  | record (name : String) (fields : List (String × Schema))
  deriving Repr, Inhabited

/-- Why a value or its text does not go with a schema. -/
inductive Fault
  | malformed
  | mismatch (expected : String) (found : Json.Document)
  | unknownField (field record : String)
  | unfit (value schema : String)
  deriving Repr

def Fault.message : Fault → String
  | .malformed => "malformed JSON text"
  | .mismatch expected found => s!"expected {expected}, found {found.text}"
  | .unknownField field record => s!"unknown field {field} in record {record}"
  | .unfit value schema => s!"{value} value does not match {schema} schema"

namespace Schema

def kind : Schema → String
  | .null => "null"
  | .bool => "bool"
  | .int => "int"
  | .float => "float"
  | .string => "string"
  | .bytes => "bytes"
  | .optional _ => "optional"
  | .array _ => "array"
  | .map _ => "map"
  | .record _ _ => "record"

mutual

def accepts : Schema → Value → Bool
  | .null, .null => true
  | .bool, .bool _ => true
  | .int, .int _ => true
  | .float, .float _ => true
  | .string, .string _ => true
  | .bytes, .bytes _ => true
  | .optional _, .null => true
  | .optional inner, value => accepts inner value
  | .array inner, .array items => items.all fun item => accepts inner item
  | .map inner, .map fields => fields.all fun field => accepts inner field.2
  | .record _ schemas, .record fields =>
    fields.all fun field => acceptsField schemas field.1 field.2
  | _, _ => false

def acceptsField : List (String × Schema) → String → Value → Bool
  | [], _, _ => false
  | (name, schema) :: schemas, field, value =>
    if name = field then accepts schema value else acceptsField schemas field value

end

def byte? : Json.Document → Except Fault UInt8
  | .int n =>
    if 0 ≤ n ∧ n < 256 then .ok (UInt8.ofNat n.toNat) else .error (.mismatch "byte" (.int n))
  | found => .error (.mismatch "byte" found)

mutual

/-- The value that a document stands for under a schema. -/
def valueOf : Schema → Json.Document → Except Fault Value
  | .null, .null => .ok .null
  | .bool, .bool b => .ok (.bool b)
  | .int, .int n =>
    if n < 0x8000000000000000 then .ok (.int (Int64.ofInt n)) else .error (.mismatch "int" (.int n))
  | .float, .int n => .ok (.float (Binary64.ofMagnitude (n < 0) (Binary64.ofNat n.natAbs)))
  | .float, .float x => .ok (.float x)
  | .int, .float x => .error (.mismatch "int" (.float x))
  | .string, .string s => .ok (.string s)
  | .bytes, .array items => .bytes <$> items.mapM byte?
  | .optional _, .null => .ok .null
  | .optional inner, found => valueOf inner found
  | .array inner, .array items => .array <$> items.mapM fun item => valueOf inner item
  | .map inner, .object members =>
    .map <$> members.mapM fun member => do return (member.1, ← valueOf inner member.2)
  | .record name schemas, .object members =>
    .record <$> members.mapM fun member =>
      do return (member.1, ← valueOfField schemas name member.1 member.2)
  | schema, found => .error (.mismatch schema.kind found)

def valueOfField :
    List (String × Schema) → String → String → Json.Document → Except Fault Value
  | [], owner, field, _ => .error (.unknownField field owner)
  | (name, schema) :: schemas, owner, field, found =>
    if name = field then valueOf schema found else valueOfField schemas owner field found

end

def encode (schema : Schema) (value : Value) : Except Fault Bytes :=
  if schema.accepts value then .ok value.toDocument.write
  else .error (.unfit value.typeName schema.kind)

def decode (schema : Schema) (bytes : Bytes) : Except Fault Value :=
  match Json.Document.parse? bytes with
  | some document => schema.valueOf document
  | none => .error .malformed

/-! ## Binary form -/

def caseCount : Nat := 10

mutual

def pack : Schema → Except Packed.Fault Bytes
  | .null => Packed.packCase 0
  | .bool => Packed.packCase 1
  | .int => Packed.packCase 2
  | .float => Packed.packCase 3
  | .string => Packed.packCase 4
  | .bytes => Packed.packCase 5
  | .optional inner => do return (← Packed.packCase 6) ++ (← pack inner)
  | .array inner => do return (← Packed.packCase 7) ++ (← pack inner)
  | .map inner => do return (← Packed.packCase 8) ++ (← pack inner)
  | .record name fields => do
    return (← Packed.packCase 9) ++ (← Packed.pack name) ++ (← Packed.packLength fields.length)
      ++ (← packFields fields)

def packFields : List (String × Schema) → Except Packed.Fault Bytes
  | [] => .ok []
  | (name, schema) :: fields => do
    return (← Packed.pack name) ++ (← pack schema) ++ (← packFields fields)

end

/-- Reads a schema nested at most `depth` deep; the number of bytes is depth enough. -/
def unpack : Nat → Packed.Reader Schema
  | 0 => throw .endOfInput
  | depth + 1 => do
    let index ← Packed.unpackCase
    match index.toNat with
    | 0 => return .null
    | 1 => return .bool
    | 2 => return .int
    | 3 => return .float
    | 4 => return .string
    | 5 => return .bytes
    | 6 => .optional <$> unpack depth
    | 7 => .array <$> unpack depth
    | 8 => .map <$> unpack depth
    | 9 =>
      let name ← Packed.unpackText
      .record name <$> Packed.unpackFields (unpack depth)
    | _ => throw (.unknownCase index caseCount)

instance : Packed Schema where
  pack := pack
  unpack := do unpack (← get).length

end Schema
end Chronicle.Payload
