import Chronicle.Item.Event

/-!
# Item index

What a store keeps of an item beside its events in the log: a version counter, one slot for
each event, the aliases that point at it and the names of its views. The version is the
number of slots written and thus the number of the next one. An item exists as long as it has
a version.
-/
namespace Chronicle.Item

/-! ## Reading -/

def isThere (keys : KeySpace) (item : ItemId) : Outcome Bool := keys.contains (Key.version item)

def version? (keys : KeySpace) (item : ItemId) : Outcome (Option Nat) := do
  match ← keys.get (Key.version item) with
  | some entry => return some (← Counter.decode entry.value).toNat
  | none => return none

def version (keys : KeySpace) (item : ItemId) : Outcome Nat := do
  match ← version? keys item with
  | some n => return n
  | none => .error (.itemNotFound item)

/-- The list stored under a key, empty when there is none. -/
def listAt {α : Type} [Packed α] (keys : KeySpace) (key : Bytes) : Outcome (List α) := do
  match ← keys.get key with
  | some entry => recorded entry.value
  | none => return []

def aliasList (keys : KeySpace) (item : ItemId) : Outcome (List ItemId) :=
  listAt keys (Key.aliases item)

def viewList (keys : KeySpace) (item : ItemId) : Outcome (List Bytes) :=
  listAt keys (Key.views item)

/-- The aliases that point at an item. -/
def aliases (keys : KeySpace) (item : ItemId) : Outcome (List ItemId) := do
  let _ ← version keys item
  aliasList keys item

/-- The names of the persistent views of an item. -/
def viewNames (keys : KeySpace) (item : ItemId) : Outcome (List Bytes) := do
  let _ ← version keys item
  viewList keys item

/-- The event that a slot points at. -/
def slotEvent (keys : KeySpace) (item : ItemId) (slot : Nat) : Outcome Event := do
  match ← keys.get (Key.slot item (UInt64.ofNat slot)) with
  | none => .error (.state (.missingSlot item slot))
  | some entry =>
    let id ← EventId.decode entry.value
    return (← (← Log.get keys id).itemEvent).event

/-- Visits the events of `count` slots from `slot` on. -/
def foldSlots {σ : Type} (keys : KeySpace) (item : ItemId)
    (visit : σ → Nat → Event → Outcome (Visit σ)) : Nat → Nat → σ → Outcome σ
  | 0, _, state => .ok state
  | count + 1, slot, state => do
    let event ← slotEvent keys item slot
    match ← visit state slot event with
    | .stop state => .ok state
    | .next state => foldSlots keys item visit count (slot + 1) state

/-! ## Writing -/

def setList {α : Type} [Packed α] (key : Bytes) (xs : List α) : Txn Unit := do
  Txn.set key (← Txn.lift (record xs)) 0

/-- The version is a counter of eight bytes. A number beyond it, which is `slot + 1` for the last slot
number of all, is refused where the counter itself would overflow. -/
def setVersion (item : ItemId) (n : Nat) : Txn Unit :=
  if n < Bytes.capacity 8 then Txn.set (Key.version item) (Counter.encode (UInt64.ofNat n)) 0
  else Txn.refuse (.state (.versionOverflow item))

/-- The index of an item without events. -/
def initIndex (item : ItemId) : Txn Unit := do
  setVersion item 0
  setList (Key.aliases item) ([] : List ItemId)
  setList (Key.views item) ([] : List Bytes)

/-- Points a slot at a log entry and moves the version past it. -/
def recordSlot (item : ItemId) (slot : Nat) (id : EventId) (kind : UInt8) : Txn Unit := do
  Txn.set (Key.slot item (UInt64.ofNat slot)) (Key.log id) kind
  setVersion item (slot + 1)

/-- Removes every key of the index, and the alias pointers of the item. -/
def teardown (item : ItemId) : Txn Unit := do
  (← Txn.query fun keys => aliasList keys item).forM fun aliasId => Txn.delete (Key.pointer aliasId)
  Txn.delete (Key.aliases item)
  (← Txn.query fun keys => viewList keys item).forM fun name => Txn.delete (Key.view item name)
  Txn.delete (Key.views item)
  let slots := (← Txn.query fun keys => version? keys item).getD 0
  (List.range slots).forM fun slot => Txn.delete (Key.slot item (UInt64.ofNat slot))
  Txn.delete (Key.version item)

end Chronicle.Item
