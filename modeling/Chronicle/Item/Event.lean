import Chronicle.Log

/-!
# Item events

An item's event has a kind, a type and a payload. In the log it stands in an envelope that
names its item, with the kind as the mark of the entry.
-/
namespace Chronicle

namespace Kind

/-- Lifecycle events: an item created or deleted, an alias set or removed. -/
def system : UInt8 := 2
/-- Changes of the schema registry. -/
def schema : UInt8 := 4
/-- Events of the domain. -/
def entity : UInt8 := 8

/-- Log entries of these kinds are item events; any other entry is nobody's. -/
def isItem (mark : UInt8) : Bool := mark = system ∨ mark = schema ∨ mark = entity

end Kind

inductive Lifecycle
  | created
  | deleted
  | aliased
  | unaliased
  deriving DecidableEq, Repr

def Lifecycle.eventType : Lifecycle → Bytes
  | .created => ['c'.toUInt8]
  | .deleted => ['d'.toUInt8]
  | .aliased => ['a'.toUInt8]
  | .unaliased => ['x'.toUInt8]

/-- The identity is that of the log entry the event was read from. -/
structure Event where
  kind : UInt8
  id : EventId
  eventType : Bytes
  payload : Bytes
  deriving DecidableEq, Repr

namespace Event

def new (kind : UInt8) (eventType payload : Bytes) : Event := ⟨kind, .zero, eventType, payload⟩

def entity (eventType payload : Bytes) : Event := new Kind.entity eventType payload

def lifecycle (what : Lifecycle) (payload : Bytes) : Event := new Kind.system what.eventType payload

/-- An event of another kind with the same type is no lifecycle event. -/
def isLifecycle (e : Event) (what : Lifecycle) : Bool :=
  e.kind = Kind.system ∧ e.eventType = what.eventType

/-- The alias that a lifecycle event sets or removes. -/
def aliasTarget (e : Event) : Outcome ItemId :=
  if e.isLifecycle .aliased ∨ e.isLifecycle .unaliased then ItemId.decode e.payload
  else .error .notAliasEvent

end Event

/-- An event and the item it belongs to. -/
structure ItemEvent where
  item : ItemId
  event : Event
  deriving DecidableEq, Repr

structure Envelope where
  item : ItemId
  eventType : Bytes
  payload : Bytes
  deriving DecidableEq, Repr

instance : Packed Envelope where
  pack e := do
    return (← Packed.pack e.item) ++ (← Packed.pack e.eventType) ++ (← Packed.pack e.payload)
  unpack := do
    let item ← Packed.unpack
    let eventType ← Packed.unpack
    let payload ← Packed.unpack
    return ⟨item, eventType, payload⟩

/-- A record's binary form as an outcome. -/
def record {α : Type} [Packed α] (x : α) : Outcome Bytes := (Packed.encode x).mapError .packed

/-- Reads a record from its binary form. -/
def recorded {α : Type} [Packed α] (bytes : Bytes) : Outcome α :=
  (Packed.decode bytes).mapError .packed

namespace Envelope

def wrap (item : ItemId) (e : Event) : Envelope := ⟨item, e.eventType, e.payload⟩

def encode (e : Envelope) : Outcome Bytes := record e

def decode (bytes : Bytes) : Outcome Envelope := (Packed.decode bytes).mapError .envelope

def unwrap (e : Envelope) (kind : UInt8) (id : EventId) : ItemEvent :=
  ⟨e.item, ⟨kind, id, e.eventType, e.payload⟩⟩

end Envelope

/-- The item event in a log entry. -/
def LogEvent.itemEvent (e : LogEvent) : Outcome ItemEvent := do
  return (← Envelope.decode e.payload).unwrap e.mark e.id

end Chronicle
