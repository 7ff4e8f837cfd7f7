import Chronicle.Fields
import Chronicle.Id

/-!
# Packed records

The binary form of stored records. Numbers are little-endian and of fixed width, a record is
its fields one after the other, a list or a text is its length in 64 bits and then its
elements, and a choice is the 32-bit number of its case. Reading takes a record off the front
of a byte string and leaves the rest.
-/
namespace Chronicle.Packed

inductive Fault
  | endOfInput
  /-- The bytes end inside a text of known length. -/
  | textCutShort
  | notText (cause : Utf8.Fault)
  | notBool (found : UInt8)
  | unknownCase (found : UInt32) (cases : Nat)
  /-- A list with more elements than 64 bits can count cannot be written. -/
  | tooLong
  deriving DecidableEq, Repr

def Fault.message : Fault → String
  | .endOfInput => "io error: unexpected end of file"
  | .textCutShort => "io error: "
  | .notText cause => s!"string is not valid utf8: {cause.message}"
  | .notBool found => s!"invalid u8 while decoding bool, expected 0 or 1, found {found}"
  | .unknownCase found cases =>
    s!"invalid value: integer `{found}`, expected variant index 0 <= i < {cases}"
  | .tooLong => "sequence must be shorter than 2^64"

abbrev Reader (α : Type) := StateT Bytes (Except Fault) α

end Packed

/-- A type with a binary form. -/
class Packed (α : Type) where
  pack : α → Except Packed.Fault Bytes
  unpack : Packed.Reader α

namespace Packed

variable {α β : Type}

def encode [Packed α] (x : α) : Except Fault Bytes := pack x

/-- Bytes after the record are ignored. -/
def decode [Packed α] (bytes : Bytes) : Except Fault α := Prod.fst <$> (unpack : Reader α) bytes

/-! ## Numbers -/

def readBytes (n : Nat) : Reader Bytes := fun bytes =>
  let front := bytes.take n
  if front.length = n then .ok (front, bytes.drop n) else .error .endOfInput

def readNat (width : Nat) : Reader Nat := Bytes.littleEndianValue <$> readBytes width

instance : Packed UInt8 where
  pack n := .ok [n]
  unpack := UInt8.ofNat <$> readNat 1

instance : Packed UInt16 where
  pack n := .ok (Bytes.littleEndian 2 n.toNat)
  unpack := UInt16.ofNat <$> readNat 2

instance : Packed UInt32 where
  pack n := .ok (Bytes.littleEndian 4 n.toNat)
  unpack := UInt32.ofNat <$> readNat 4

instance : Packed UInt64 where
  pack n := .ok (Bytes.littleEndian 8 n.toNat)
  unpack := UInt64.ofNat <$> readNat 8

instance : Packed Int64 where
  pack n := pack n.toUInt64
  unpack := UInt64.toInt64 <$> unpack

instance : Packed Bool where
  pack b := .ok [if b then 1 else 0]
  unpack := do
    match ← (unpack : Reader UInt8) with
    | 0 => return false
    | 1 => return true
    | found => throw (.notBool found)

/-! ## Lists, texts and fields -/

def packLength (n : Nat) : Except Fault Bytes :=
  if n < Bytes.capacity 8 then .ok (Bytes.littleEndian 8 n) else .error .tooLong

def unpackLength : Reader Nat := readNat 8

/-- The elements one after the other, without their number. -/
def packAll (item : α → Except Fault Bytes) : List α → Except Fault Bytes
  | [] => .ok []
  | x :: xs => do return (← item x) ++ (← packAll item xs)

def unpackAll (item : Reader α) : Nat → Reader (List α)
  | 0 => return []
  | n + 1 => do
    let x ← item
    let xs ← unpackAll item n
    return x :: xs

def packList (item : α → Except Fault Bytes) (xs : List α) : Except Fault Bytes := do
  return (← packLength xs.length) ++ (← packAll item xs)

def unpackList (item : Reader α) : Reader (List α) := do unpackAll item (← unpackLength)

instance [Packed α] : Packed (List α) where
  pack := packList pack
  unpack := unpackList unpack

def packText (text : String) : Except Fault Bytes := do
  let bytes := Utf8.encode text
  return (← packLength bytes.length) ++ bytes

def unpackText : Reader String := do
  let n ← unpackLength
  let rest ← get
  if rest.length < n then throw .textCutShort
  set (rest.drop n)
  match Utf8.decode (rest.take n) with
  | .ok text => return text
  | .error cause => throw (.notText cause)

instance : Packed String where
  pack := packText
  unpack := unpackText

def unpackPair (a : Reader α) (b : Reader β) : Reader (α × β) := do
  let x ← a
  let y ← b
  return (x, y)

/-- The pairs may stand in any order; the last one of a name counts. -/
def unpackFields (value : Reader α) : Reader (Fields α) :=
  Fields.ofList <$> unpackList (unpackPair unpackText value)

/-! ## Cases -/

def packCase (index : Nat) : Except Fault Bytes := .ok (Bytes.littleEndian 4 index)

def unpackCase : Reader UInt32 := unpack

/-! ## Identities -/

instance : Packed EventId where
  pack id := do return (← pack id.partition) ++ (← pack id.timestamp) ++ (← pack id.index)
  unpack := do
    let partition ← unpack
    let timestamp ← unpack
    let index ← unpack
    return ⟨partition, timestamp, index⟩

instance : Packed ItemId where
  pack id := do return (← pack id.tag) ++ (← pack id.name)
  unpack := do
    let tag ← unpack
    let name ← unpack
    return ⟨tag, name⟩

end Packed
end Chronicle
