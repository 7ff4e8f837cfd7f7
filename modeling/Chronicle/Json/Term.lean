import Chronicle.Json.Numeral
import Chronicle.Json.Quoted

/-!
# JSON terms

A JSON text as it stands, before any of it is given a meaning: strings keep their escapes,
numbers their digits, objects every member in the order written. `write` prints a term
without blanks; `parse?` reads one with blanks around any of its parts.
-/
namespace Chronicle.Json

inductive Term
  | null
  | bool (b : Bool)
  | number (n : Numeral)
  | string (raw : Bytes)
  | array (items : List Term)
  | object (members : List (Bytes × Term))
  deriving Repr, Inhabited

def comma : UInt8 := ','.toUInt8
def colon : UInt8 := ':'.toUInt8
def openBracket : UInt8 := '['.toUInt8
def closeBracket : UInt8 := ']'.toUInt8
def openBrace : UInt8 := 0x7B
def closeBrace : UInt8 := 0x7D

namespace Term

def text (s : String) : Term := .string (Quoted.write s)

def writeString (raw : Bytes) : Bytes := quote :: raw ++ [quote]

mutual

def write : Term → Bytes
  | .null => Utf8.encode "null"
  | .bool true => Utf8.encode "true"
  | .bool false => Utf8.encode "false"
  | .number n => n.write
  | .string raw => writeString raw
  | .array [] => [openBracket, closeBracket]
  | .array (item :: items) => openBracket :: write item ++ writeItems items
  | .object [] => [openBrace, closeBrace]
  | .object ((key, value) :: members) =>
    openBrace :: writeString key ++ colon :: write value ++ writeMembers members

/-- The items after the first, and the closing bracket. -/
def writeItems : List Term → Bytes
  | [] => [closeBracket]
  | item :: items => comma :: write item ++ writeItems items

/-- The members after the first, and the closing brace. -/
def writeMembers : List (Bytes × Term) → Bytes
  | [] => [closeBrace]
  | (key, value) :: members =>
    comma :: writeString key ++ colon :: write value ++ writeMembers members

end

/-! ## Reading -/

def isBlank (b : UInt8) : Bool := b = 0x20 ∨ b = 0x09 ∨ b = 0x0A ∨ b = 0x0D

def skipBlanks (bytes : Bytes) : Bytes := bytes.dropWhile isBlank

/-- What follows `word`, if the bytes begin with it. -/
def after? (word : Bytes) (bytes : Bytes) : Option Bytes :=
  if word.isPrefixOf bytes then some (bytes.drop word.length) else none

/-- Reads a member's name and the colon. -/
def readName? (bytes : Bytes) : Option (Bytes × Bytes) := do
  let rest ← after? [quote] (skipBlanks bytes)
  let (key, rest) ← Quoted.body? rest
  let rest ← after? [colon] (skipBlanks rest)
  some (key, rest)

mutual

/-- Reads one term. Each call takes one from `fuel`. -/
def read? : Nat → Bytes → Option (Term × Bytes)
  | 0, _ => none
  | fuel + 1, bytes =>
    match skipBlanks bytes with
    | [] => none
    | b :: rest =>
      if b = quote then (Quoted.body? rest).map fun p => (.string p.1, p.2)
      else if b = openBracket then
        match after? [closeBracket] (skipBlanks rest) with
        | some rest => some (.array [], rest)
        | none => (readItems? fuel rest).map fun p => (.array p.1, p.2)
      else if b = openBrace then
        match after? [closeBrace] (skipBlanks rest) with
        | some rest => some (.object [], rest)
        | none => (readMembers? fuel rest).map fun p => (.object p.1, p.2)
      else if b = 'n'.toUInt8 then
        (after? (Utf8.encode "ull") rest).map fun rest => (.null, rest)
      else if b = 't'.toUInt8 then
        (after? (Utf8.encode "rue") rest).map fun rest => (.bool true, rest)
      else if b = 'f'.toUInt8 then
        (after? (Utf8.encode "alse") rest).map fun rest => (.bool false, rest)
      else (Numeral.read? (b :: rest)).map fun p => (.number p.1, p.2)

/-- Reads one or more items and the closing bracket. -/
def readItems? : Nat → Bytes → Option (List Term × Bytes)
  | 0, _ => none
  | fuel + 1, bytes => do
    let (item, rest) ← read? fuel bytes
    match skipBlanks rest with
    | [] => none
    | b :: rest =>
      if b = closeBracket then some ([item], rest)
      else if b = comma then (readItems? fuel rest).map fun p => (item :: p.1, p.2)
      else none

/-- Reads one or more members and the closing brace. -/
def readMembers? : Nat → Bytes → Option (List (Bytes × Term) × Bytes)
  | 0, _ => none
  | fuel + 1, bytes => do
    let (key, rest) ← readName? bytes
    let (value, rest) ← read? fuel rest
    match skipBlanks rest with
    | [] => none
    | b :: rest =>
      if b = closeBrace then some ([(key, value)], rest)
      else if b = comma then (readMembers? fuel rest).map fun p => ((key, value) :: p.1, p.2)
      else none

end

/-- Reads a whole text. Two calls for each byte and one more are enough. -/
def parse? (bytes : Bytes) : Option Term := do
  let (term, rest) ← read? (2 * bytes.length + 1) bytes
  if (skipBlanks rest).isEmpty then some term else none

/-! ## Parts of a term -/

def string? : Term → Option String
  | .string raw => Quoted.read? raw
  | _ => none

/-- The members of an object under their names; every name has to be text. -/
def named? (members : List (Bytes × Term)) : Option (List (String × Term)) :=
  members.mapM fun member => do return (← Quoted.read? member.1, member.2)

/-- The members of one name. -/
def allNamed (name : String) (members : List (String × Term)) : List Term :=
  (members.filter fun member => member.1 = name).map Prod.snd

end Term
end Chronicle.Json
