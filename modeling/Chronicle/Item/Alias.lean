import Chronicle.Item.Stream

/-!
# Aliases

An alias is a second identity of an item. The pointer from the alias to the item and the
item's list of aliases are written together, and both changes are events of the item.
-/
namespace Chronicle.Item

/-- The item an alias points at. -/
def resolve (keys : KeySpace) (aliasId : ItemId) : Outcome ItemId := do
  match ← keys.get (Key.pointer aliasId) with
  | some entry => ItemId.decode entry.value
  | none => .error (.aliasNotFound aliasId)

def loadByAlias (keys : KeySpace) (aliasId : ItemId) (first last : Nat) : Outcome Loaded := do
  load keys (← resolve keys aliasId) first last

/-- Writes the pointer, and the alias into the list unless it is there. -/
def link (item aliasId : ItemId) : Txn Unit := do
  Txn.set (Key.pointer aliasId) item.encode 0
  let list ← Txn.query fun keys => aliasList keys item
  setList (Key.aliases item) (if aliasId ∈ list then list else list ++ [aliasId])

def unlink (item aliasId : ItemId) : Txn Unit := do
  Txn.delete (Key.pointer aliasId)
  let list ← Txn.query fun keys => aliasList keys item
  setList (Key.aliases item) (list.filter fun other => other ≠ aliasId)

/-- An alias that points anywhere, even at the item itself, is taken. -/
def addAlias (item aliasId : ItemId) : Txn Unit := do
  if ← Txn.query fun keys => keys.contains (Key.pointer aliasId) then
    Txn.refuse (.aliasExists aliasId)
  let _ ← put item (Event.lifecycle .aliased aliasId.encode)
  link item aliasId

def removeAlias (item aliasId : ItemId) : Txn Unit := do
  let target ← Txn.query fun keys => resolve keys aliasId
  if target ≠ item then Txn.refuse (.aliasElsewhere aliasId item)
  let _ ← put item (Event.lifecycle .unaliased aliasId.encode)
  unlink item aliasId

end Chronicle.Item
