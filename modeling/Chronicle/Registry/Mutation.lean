import Chronicle.Registry.History

/-!
# Registry mutations

A mutation checks its precondition against the registry as it stands and appends one change.
It answers the new version of the registry, and an update of an event type the number of the
new revision.
-/
namespace Chronicle.Registry

/-- Creates the registry's item unless it is there. -/
def ensure : Txn Unit := do
  unless ← Txn.query fun keys => Item.isThere keys registryItem do
    Item.create registryItem

/-- The registry as it stands, with its item in place. -/
def prepare : Txn Registry := do
  ensure
  Txn.query current

/-- The slot of the change is the new version. -/
def append (change : Change) : Txn Nat := do
  Item.putNext registryItem (← Txn.lift change.toEvent)

def requireEntity (r : Registry) (entity : String) : Outcome (EntityType Payload.Schema) :=
  match r.entity? entity with
  | some e => .ok e
  | none => .error (.entityTypeNotFound entity)

def requireEvent (r : Registry) (entity name : String) : Outcome (EntityType Payload.Schema) := do
  let e ← requireEntity r entity
  if e.hasEvent name then return e else .error (.eventTypeNotFound entity name)

def createEntityType (name : String) : Txn Nat := do
  let r ← prepare
  if (r.entity? name).isSome then Txn.refuse (.entityTypeExists name)
  append (.entityCreated name)

def deleteEntityType (name : String) : Txn Nat := do
  let r ← prepare
  let _ ← Txn.lift (requireEntity r name)
  append (.entityDeleted name)

def createEventType (entity name : String) (schema : Payload.Schema) : Txn Nat := do
  let r ← prepare
  let e ← Txn.lift (requireEntity r entity)
  if e.hasEvent name then Txn.refuse (.eventTypeExists entity name)
  append (.eventCreated entity name schema.write)

def updateEventType (entity name : String) (schema : Payload.Schema) : Txn Nat := do
  let r ← prepare
  let e ← Txn.lift (requireEvent r entity name)
  let _ ← append (.eventUpdated entity name schema.write)
  return e.nextNumber name

def deleteEventType (entity name : String) : Txn Nat := do
  let r ← prepare
  let _ ← Txn.lift (requireEvent r entity name)
  append (.eventDeleted entity name)

end Chronicle.Registry
