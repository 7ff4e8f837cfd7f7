import Chronicle.Id
import Chronicle.Packed
import Chronicle.Payload.Schema

/-!
# Faults

Why an operation on a store fails, and the wording of each cause.
-/
namespace Chronicle

/-- A stored or requested state that the store does not allow. -/
inductive StateFault
  | clockOutOfRange
  | noFreeIndex (partition : UInt8) (timestamp : UInt64)
  | missingSlot (item : ItemId) (slot : Nat)
  /-- Stands for the overflow of `slot + 1` behind the last slot number of eight bytes. -/
  | versionOverflow (item : ItemId)
  /-- Reported by the caller's own code. -/
  | reported (text : String)
  deriving DecidableEq, Repr

def StateFault.message : StateFault → String
  | .clockOutOfRange => "system clock out of range"
  | .noFreeIndex partition timestamp =>
    s!"no free index left at partition {partition} timestamp {timestamp}"
  | .missingSlot item slot => s!"item {item.text} is missing slot {slot}"
  | .versionOverflow item => s!"no slot number left in item {item.text}"
  | .reported text => text

/-- A byte string that is no key or identity. -/
inductive KeyFault
  | logKeyLength (found : Nat)
  | notLogKey (tag : UInt8)
  | itemIdLength (found : Nat)
  deriving DecidableEq, Repr

def twoHexDigits (b : UInt8) : String :=
  Utf8.lossy [Json.Quoted.hexDigit (b.toNat / 16), Json.Quoted.hexDigit (b.toNat % 16)]

def KeyFault.message : KeyFault → String
  | .logKeyLength found => s!"log key must be 13 bytes, got {found}"
  | .notLogKey tag => s!"not a log key: tag 0x{twoHexDigits tag}"
  | .itemIdLength found => s!"item id needs at least 2 bytes, got {found}"

inductive Fault
  | packed (cause : Packed.Fault)
  | counterWidth (found : Nat)
  | keySize
  | badKey (cause : KeyFault)
  | envelope (cause : Packed.Fault)
  | missingValue (key : Bytes)
  | eventNotFound (id : EventId)
  | payloadMissing (id : EventId)
  | emptyPage
  | partitionOutOfRange (partition : UInt16)
  | itemExists (item : ItemId)
  | reservedItem (item : ItemId)
  | itemNotFound (item : ItemId)
  | aliasExists (aliasId : ItemId)
  | aliasNotFound (aliasId : ItemId)
  | aliasElsewhere (aliasId item : ItemId)
  | notAliasEvent
  | emptyViewName
  | entityTypeExists (entity : String)
  | entityTypeNotFound (entity : String)
  | eventTypeExists (entity event : String)
  | eventTypeNotFound (entity event : String)
  | revisionNotFound (entity event : String) (revision : Nat)
  | unknownRecord (recordType : Bytes)
  | schemaText
  | payload (cause : Payload.Fault)
  | state (cause : StateFault)
  /-- Reported by the caller's own code. -/
  | other (text : String)
  deriving Repr

namespace Fault

def bytesText (bytes : Bytes) : String :=
  "[" ++ String.intercalate ", " (bytes.map twoHexDigits) ++ "]"

def packedText (cause : Packed.Fault) : String := s!"Serialization error: {cause.message}"

def message : Fault → String
  | .packed cause => packedText cause
  | .counterWidth found => s!"Serialization error: expected 8-byte counter, got {found} bytes"
  | .keySize =>
    "Transaction error: MDB_BAD_VALSIZE: Unsupported size of key/DB name/data, "
      ++ "or wrong DUPFIXED size"
  | .badKey cause => s!"Key decode error: {cause.message}"
  | .envelope cause => s!"Envelope decode error: {packedText cause}"
  | .missingValue key => s!"Stored value has no payload at key {bytesText key}"
  | .eventNotFound id => s!"Log event not found: {id.text}"
  | .payloadMissing id => s!"Log event {id.text} found but payload missing"
  | .emptyPage => "Page size must be at least 1"
  | .partitionOutOfRange partition => s!"Partition out of range: {partition}"
  | .itemExists item => s!"Item exists: {item.text}"
  | .reservedItem item => s!"Item {item.text} is written only by the schema registry"
  | .itemNotFound item => s!"Item not found: {item.text}"
  | .aliasExists aliasId => s!"Alias exists: {aliasId.text}"
  | .aliasNotFound aliasId => s!"Alias not found: {aliasId.text}"
  | .aliasElsewhere aliasId item => s!"Alias {aliasId.text} not found in item {item.text}"
  | .notAliasEvent => "Not an alias event"
  | .emptyViewName => "View name must not be empty"
  | .entityTypeExists entity => s!"Entity type exists: {entity}"
  | .entityTypeNotFound entity => s!"Entity type not found: {entity}"
  | .eventTypeExists entity event => s!"Event type exists: {entity}.{event}"
  | .eventTypeNotFound entity event => s!"Event type not found: {entity}.{event}"
  | .revisionNotFound entity event revision =>
    s!"Event version not found: {entity}.{event}@{revision}"
  | .unknownRecord recordType =>
    s!"Schema error: unknown schema record type {Utf8.lossy recordType}"
  | .schemaText => "Schema error: malformed data schema"
  | .payload .malformed => s!"Serialization error: {Payload.Fault.malformed.message}"
  | .payload cause => s!"Schema error: {cause.message}"
  | .state cause => s!"Invalid state: {cause.message}"
  | .other text => s!"Other error: {text}"

end Fault

/-- The outcome of an operation. -/
abbrev Outcome (α : Type) := Except Fault α

end Chronicle
