import Chronicle.Item.View
import Chronicle.Registry.Change

/-!
# Registry history

The registry as it stands, or as it stood at some time, is read by folding the changes in the
stream of the registry's item. Event types are looked up at the first moment they exist, so
that deleting one later does not hide it.
-/
namespace Chronicle.Registry

/-- Takes one event into the registry and asks whether to stop. -/
def step (stop : Registry → Bool) (r : Registry) (event : Event) : Outcome (Visit Registry) := do
  match ← Change.ofEvent event with
  | none => return .next r
  | some change =>
    let (r, outcome) := change.apply r
    outcome
    return if stop r then .stop r else .next r

/-- Folds until `stop` holds, which is asked of the empty registry and after each change. -/
def fold (keys : KeySpace) (stop : Registry → Bool) : Outcome Registry :=
  if stop empty then .ok empty
  else do
    if ← Item.isThere keys registryItem then
      let (r, _) ← Item.view keys registryItem 0 empty (step stop)
      return r
    else return empty

def current (keys : KeySpace) : Outcome Registry := fold keys fun _ => false

def atVersion (keys : KeySpace) (vsn : Nat) : Outcome Registry := fold keys fun r => vsn ≤ r.vsn

/-- The number of changes, read from the version of the registry's item. -/
def latestVersion (keys : KeySpace) : Outcome Nat := do
  if ← Item.isThere keys registryItem then return (← Item.version keys registryItem) - 1
  else return 0

/-- An entity type at the first moment its version is `vsn` or more, or else as it stands. -/
def entityType (keys : KeySpace) (name : String) (vsn : Nat) :
    Outcome (EntityType Payload.Schema) := do
  let r ← fold keys fun r =>
    match r.entity? name with
    | some e => vsn ≤ e.vsn
    | none => false
  match r.entity? name with
  | some e => return e
  | none => .error (.entityTypeNotFound name)

/-- The data schema of a revision at the first moment it exists. -/
def eventSchema (keys : KeySpace) (entity name : String) (number : Nat) :
    Outcome Payload.Schema := do
  let r ← fold keys fun r =>
    match r.entity? entity with
    | some e => (e.get? name number).isSome
    | none => false
  match r.entity? entity with
  | none => .error (.entityTypeNotFound entity)
  | some e =>
    match e.get? name number with
    | some schema => return schema
    | none => .error (.revisionNotFound entity name number)

end Chronicle.Registry
