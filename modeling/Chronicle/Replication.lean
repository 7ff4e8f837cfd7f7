import Chronicle.Item.Alias

/-!
# Replication

A replica takes over pages of another store's log. Each page is first written into the log
as it is; then the index of each item is rebuilt from its events, without appending anything.
-/
namespace Chronicle

/-- Rebuilds the index for one event that is already in the log. -/
def Item.replicate (entry : LogEvent) : Txn Unit := do
  let found ← Txn.lift entry.itemEvent
  let item := found.item
  if found.event.isLifecycle .created then do
    if ← Txn.query fun keys => Item.isThere keys item then Txn.refuse (.itemExists item)
    Item.initIndex item
  let slot ← Txn.query fun keys => Item.version keys item
  Item.recordSlot item slot entry.id entry.mark
  if found.event.isLifecycle .deleted then Item.teardown item
  else if found.event.isLifecycle .aliased then do
    Item.link item (← Txn.lift found.event.aliasTarget)
  else if found.event.isLifecycle .unaliased then do
    Item.unlink item (← Txn.lift found.event.aliasTarget)

namespace Replication

/-- A page of log events to be shipped. -/
def capture (keys : KeySpace) (first last : EventId) (size : Nat) :
    Outcome (Page (List LogEvent)) :=
  Log.range keys first last size

/-- Takes over a page and answers the number of its events. -/
def apply (events : List LogEvent) : Txn Nat := do
  events.forM Log.replicate
  (events.filter fun e => Kind.isItem e.mark).forM Item.replicate
  return events.length

end Replication
end Chronicle
