import Chronicle.Item.Index

/-!
# Item streams

An item is a stream of events, the first of which creates it. Deleting an item ends the
stream with one more event and removes the index; the events stay in the log, and an item
created again under the same identity starts over at slot 0.
-/
namespace Chronicle

/-- Where the schema registry keeps its changes. -/
def registryItem : ItemId := ⟨0, Utf8.encode "SCHEMA"⟩

namespace Item

/-- Events read from an item. -/
structure Loaded where
  id : ItemId
  /-- The number of the newest slot. -/
  latest : Nat
  /-- The last slot read, if any was. -/
  through : Option Nat
  events : List Event
  deriving Repr

/-- Reads the slots from `first` to `last`, or to the end when `last` is not past `first`. -/
def load (keys : KeySpace) (item : ItemId) (first last : Nat) : Outcome Loaded := do
  let n ← version keys item
  let stop := if first < last then min (last + 1) n else n
  let read ← foldSlots keys item (fun events _ event => .ok (.next (event :: events)))
    (stop - first) first []
  return ⟨item, n - 1, if first < stop then some (stop - 1) else none, read.reverse⟩

/-- Appends an event to the log and points a slot at it. -/
def append (item : ItemId) (slot : Nat) (event : Event) : Txn Unit := do
  let partition ← Txn.lift item.partition
  let payload ← Txn.lift (Envelope.wrap item event).encode
  let id ← Log.put partition (.new event.kind payload)
  recordSlot item slot id event.kind

/-- Appends an event and answers its slot; any item will do. -/
def putNext (item : ItemId) (event : Event) : Txn Nat := do
  let slot ← Txn.query fun keys => version keys item
  append item slot event
  return slot

/-- Appends an event of the caller. The item of the schema registry is closed to it, so that
its version counts registry changes alone. -/
def put (item : ItemId) (event : Event) : Txn Nat :=
  if item = registryItem then Txn.refuse (.reservedItem item) else putNext item event

def create (item : ItemId) : Txn Unit := do
  if ← Txn.query fun keys => isThere keys item then Txn.refuse (.itemExists item)
  let _ ← Txn.lift item.partition
  initIndex item
  append item 0 (Event.lifecycle .created [])

def delete (item : ItemId) : Txn Unit := do
  let _ ← put item (Event.lifecycle .deleted [])
  teardown item

end Item
end Chronicle
