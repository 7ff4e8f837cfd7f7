import Chronicle.Item.Event
import Chronicle.Payload.SchemaText
import Chronicle.Registry.EntityType

/-!
# Registry changes

The registry is the result of its changes, applied in order to the empty registry. Each
change is an event of the schema kind, whose type says what it does.
-/
namespace Chronicle

structure Registry where
  /-- The number of changes applied. -/
  vsn : Nat
  entities : Std.ExtTreeMap String (EntityType Payload.Schema)

namespace Registry

def empty : Registry := ⟨0, ∅⟩

instance : Inhabited Registry := ⟨empty⟩

def entity? (r : Registry) (name : String) : Option (EntityType Payload.Schema) :=
  r.entities[name]?

def toList (r : Registry) : List (String × EntityType Payload.Schema) := r.entities.toList

def setEntity (r : Registry) (e : EntityType Payload.Schema) : Registry :=
  { r with entities := r.entities.insert e.name e }

end Registry

/-- A data schema is kept as its stored text, which need not be readable. -/
inductive Change
  | entityCreated (name : String)
  | entityDeleted (name : String)
  | eventCreated (entity name : String) (schema : Bytes)
  | eventUpdated (entity name : String) (schema : Bytes)
  | eventDeleted (entity name : String)
  deriving DecidableEq, Repr

namespace Change

/-! ## Changes as events -/

structure EntityRecord where
  name : String

instance : Packed EntityRecord where
  pack r := Packed.pack r.name
  unpack := EntityRecord.mk <$> Packed.unpack

structure EventRecord where
  entity : String
  name : String
  schema : Bytes

instance : Packed EventRecord where
  pack r := do
    return (← Packed.pack r.entity) ++ (← Packed.pack r.name) ++ (← Packed.pack r.schema)
  unpack := do
    let entity ← Packed.unpack
    let name ← Packed.unpack
    let schema ← Packed.unpack
    return ⟨entity, name, schema⟩

def entityCreatedType : Bytes := Utf8.encode "ENT:CREATED"
def entityDeletedType : Bytes := Utf8.encode "ENT:DELETED"
def eventCreatedType : Bytes := Utf8.encode "EVT:CREATED"
def eventUpdatedType : Bytes := Utf8.encode "EVT:UPDATED"
def eventDeletedType : Bytes := Utf8.encode "EVT:DELETED"

/-- The record of a deleted event type has an empty schema. -/
def toEvent : Change → Outcome Event
  | .entityCreated name => do
    return .new Kind.schema entityCreatedType (← record (EntityRecord.mk name))
  | .entityDeleted name => do
    return .new Kind.schema entityDeletedType (← record (EntityRecord.mk name))
  | .eventCreated entity name schema => do
    return .new Kind.schema eventCreatedType (← record (EventRecord.mk entity name schema))
  | .eventUpdated entity name schema => do
    return .new Kind.schema eventUpdatedType (← record (EventRecord.mk entity name schema))
  | .eventDeleted entity name => do
    return .new Kind.schema eventDeletedType (← record (EventRecord.mk entity name []))

def readEntity (payload : Bytes) (f : String → Change) : Outcome (Option Change) := do
  let r : EntityRecord ← recorded payload
  return some (f r.name)

def readEvent (payload : Bytes) (f : String → String → Bytes → Change) :
    Outcome (Option Change) := do
  let r : EventRecord ← recorded payload
  return some (f r.entity r.name r.schema)

/-- The change in an event; an event of another kind holds none. -/
def ofEvent (e : Event) : Outcome (Option Change) :=
  if e.kind ≠ Kind.schema then .ok none
  else if e.eventType = entityCreatedType then readEntity e.payload .entityCreated
  else if e.eventType = entityDeletedType then readEntity e.payload .entityDeleted
  else if e.eventType = eventCreatedType then readEvent e.payload .eventCreated
  else if e.eventType = eventUpdatedType then readEvent e.payload .eventUpdated
  else if e.eventType = eventDeletedType then
    readEvent e.payload fun entity name _ => .eventDeleted entity name
  else .error (.unknownRecord e.eventType)

/-! ## Applying changes -/

/-- Adds a revision whose number is found from the entity type as it was. -/
def addRevision (r : Registry) (entity name : String) (schema : Bytes)
    (number : EntityType Payload.Schema → Nat) : Registry × Outcome Unit :=
  match r.entity? entity with
  | none => (r, .ok ())
  | some e =>
    match Payload.Schema.parse? schema with
    | none => (r, .error .schemaText)
    | some schema => (r.setEntity (e.insert ⟨name, number e⟩ schema).changed, .ok ())

/-- The version moves on with every change, also with one that fails or that is aimed at an
entity type that is not there. -/
def apply (c : Change) (r : Registry) : Registry × Outcome Unit :=
  let r := { r with vsn := r.vsn + 1 }
  match c with
  | .entityCreated name => (r.setEntity (.new name), .ok ())
  | .entityDeleted name => ({ r with entities := r.entities.erase name }, .ok ())
  | .eventCreated entity name schema => addRevision r entity name schema fun _ => 0
  | .eventUpdated entity name schema => addRevision r entity name schema fun e => e.nextNumber name
  | .eventDeleted entity name =>
    match r.entity? entity with
    | none => (r, .ok ())
    | some e => (r.setEntity (e.eraseEvent name).changed, .ok ())

end Change
end Chronicle
