import Chronicle.Item.Event

/-!
# Item families

The events of all items whose names begin alike, read from the shared log in its order.
Events of deleted items are among them.
-/
namespace Chronicle.Item

/-- The item events in a part of the log that belong to items extending `stem`. The page counts
every log entry; entries that are no item events are passed over. -/
def family (keys : KeySpace) (stem : ItemId) (first last : EventId) (size : Nat) :
    Outcome (Page (List ItemEvent)) :=
  Log.collect keys first last size fun entry => do
    if Kind.isItem entry.mark then
      let found ← entry.itemEvent
      return if found.item.extends? stem then some found else none
    else return none

end Chronicle.Item
