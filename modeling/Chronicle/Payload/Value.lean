import Chronicle.Json.Document
import Chronicle.Packed

/-!
# Payload values

What callers put into an event's payload and get back from it. A map and a record both have
named fields; they differ in the data schema that describes them.
-/
namespace Chronicle.Payload

inductive Value
  | null
  | bool (b : Bool)
  | int (n : Int64)
  | float (x : Binary64)
  | string (s : String)
  | bytes (b : Bytes)
  | array (items : List Value)
  | map (fields : List (String × Value))
  | record (fields : List (String × Value))
  deriving Repr, Inhabited

namespace Value

def typeName : Value → String
  | .null => "null"
  | .bool _ => "bool"
  | .int _ => "int"
  | .float _ => "float"
  | .string _ => "string"
  | .bytes _ => "bytes"
  | .array _ => "array"
  | .map _ => "map"
  | .record _ => "record"

mutual

/-- The fields of every map and record inside stand in order. -/
def Ordered : Value → Prop
  | .array items => OrderedItems items
  | .map fields => Fields.Ordered fields ∧ OrderedFields fields
  | .record fields => Fields.Ordered fields ∧ OrderedFields fields
  | _ => True

def OrderedItems : List Value → Prop
  | [] => True
  | item :: items => Ordered item ∧ OrderedItems items

def OrderedFields : List (String × Value) → Prop
  | [] => True
  | (_, value) :: fields => Ordered value ∧ OrderedFields fields

end

mutual

/-- Bytes become an array of numbers, maps and records objects; a number that is not finite
becomes null. -/
def toDocument : Value → Json.Document
  | .null => .null
  | .bool b => .bool b
  | .int n => .int n.toInt
  | .float x => if x.isFinite then .float x else .null
  | .string s => .string s
  | .bytes b => .array (b.map fun byte => .int byte.toNat)
  | .array items => .array (itemDocuments items)
  | .map fields => .object (fieldDocuments fields)
  | .record fields => .object (fieldDocuments fields)

def itemDocuments : List Value → List Json.Document
  | [] => []
  | item :: items => toDocument item :: itemDocuments items

def fieldDocuments : List (String × Value) → List (String × Json.Document)
  | [] => []
  | (name, value) :: fields => (name, toDocument value) :: fieldDocuments fields

end

/-! ## Binary form -/

def caseCount : Nat := 9

mutual

def pack : Value → Except Packed.Fault Bytes
  | .null => Packed.packCase 0
  | .bool b => do return (← Packed.packCase 1) ++ (← Packed.pack b)
  | .int n => do return (← Packed.packCase 2) ++ (← Packed.pack n)
  | .float x => do return (← Packed.packCase 3) ++ (← Packed.pack x.bits)
  | .string s => do return (← Packed.packCase 4) ++ (← Packed.pack s)
  | .bytes b => do return (← Packed.packCase 5) ++ (← Packed.pack b)
  | .array items => do
    return (← Packed.packCase 6) ++ (← Packed.packLength items.length) ++ (← packItems items)
  | .map fields => do
    return (← Packed.packCase 7) ++ (← Packed.packLength fields.length) ++ (← packFields fields)
  | .record fields => do
    return (← Packed.packCase 8) ++ (← Packed.packLength fields.length) ++ (← packFields fields)

def packItems : List Value → Except Packed.Fault Bytes
  | [] => .ok []
  | item :: items => do return (← pack item) ++ (← packItems items)

def packFields : List (String × Value) → Except Packed.Fault Bytes
  | [] => .ok []
  | (name, value) :: fields => do
    return (← Packed.pack name) ++ (← pack value) ++ (← packFields fields)

end

/-- Reads a value nested at most `depth` deep. Every level takes at least the four bytes of
its case, so the number of bytes is depth enough. -/
def unpack : Nat → Packed.Reader Value
  | 0 => throw .endOfInput
  | depth + 1 => do
    let index ← Packed.unpackCase
    match index.toNat with
    | 0 => return .null
    | 1 => .bool <$> Packed.unpack
    | 2 => .int <$> Packed.unpack
    | 3 => (fun bits => .float ⟨bits⟩) <$> Packed.unpack
    | 4 => .string <$> Packed.unpack
    | 5 => .bytes <$> Packed.unpack
    | 6 => .array <$> Packed.unpackList (unpack depth)
    | 7 => .map <$> Packed.unpackFields (unpack depth)
    | 8 => .record <$> Packed.unpackFields (unpack depth)
    | _ => throw (.unknownCase index caseCount)

instance : Packed Value where
  pack := pack
  unpack := do unpack (← get).length

end Value
end Chronicle.Payload
