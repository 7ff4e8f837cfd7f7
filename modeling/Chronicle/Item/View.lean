import Chronicle.Item.Stream

/-!
# Views

A view folds the events of an item in slot order. A persistent view keeps its state in the
store together with the number of slots folded into it, so that the next sync goes on where
the last one ended.
-/
namespace Chronicle

/-- The stored progress of a persistent view: `vsn` slots are folded into `state`. -/
structure Checkpoint where
  vsn : UInt64
  state : Bytes
  deriving DecidableEq, Repr

instance : Packed Checkpoint where
  pack c := do return (← Packed.pack c.vsn) ++ (← Packed.pack c.state)
  unpack := do
    let vsn ← Packed.unpack
    let state ← Packed.unpack
    return ⟨vsn, state⟩

/-- A fold whose state can be stored. -/
structure View (σ : Type) where
  fold : σ → Event → Outcome (Visit σ)
  encode : σ → Outcome Bytes
  decode : Bytes → Outcome σ

namespace Item

variable {σ : Type}

/-- Folds the slots from `first` on; also answers the last slot visited. The event at which the
fold stops counts as visited. -/
def view (keys : KeySpace) (item : ItemId) (first : Nat) (init : σ)
    (f : σ → Event → Outcome (Visit σ)) : Outcome (σ × Option Nat) := do
  let n ← version keys item
  foldSlots keys item (visit f) (n - first) first (init, none)
where
  visit (f : σ → Event → Outcome (Visit σ)) (s : σ × Option Nat) (slot : Nat) (event : Event) :
      Outcome (Visit (σ × Option Nat)) := do
    match ← f s.1 event with
    | .next state => return .next (state, some slot)
    | .stop state => return .stop (state, some slot)

/-- The list of view names stands where a view without a name would. -/
def checkViewName (name : Bytes) : Outcome Unit :=
  if name = [] then .error .emptyViewName else .ok ()

def checkpoint? (keys : KeySpace) (item : ItemId) (name : Bytes) :
    Outcome (Option Checkpoint) := do
  checkViewName name
  let _ ← version keys item
  match ← keys.get (Key.view item name) with
  | some entry => some <$> recorded entry.value
  | none => return none

def setCheckpoint (item : ItemId) (name : Bytes) (checkpoint : Checkpoint) : Txn Unit := do
  Txn.set (Key.view item name) (← Txn.lift (record checkpoint)) 0

/-- Stores the first checkpoint of a view and its name. -/
def registerView (item : ItemId) (name state : Bytes) : Txn Checkpoint := do
  let checkpoint : Checkpoint := ⟨0, state⟩
  setCheckpoint item name checkpoint
  let names ← Txn.query fun keys => viewList keys item
  setList (Key.views item) (names ++ [name])
  return checkpoint

/-- Brings a persistent view up to date and answers its state. The first sync starts from
`initial`, later ones from the checkpoint. -/
def sync (item : ItemId) (name : Bytes) (v : View σ) (initial : σ) : Txn σ := do
  let checkpoint ←
    match ← Txn.query fun keys => checkpoint? keys item name with
    | some checkpoint => pure checkpoint
    | none => do registerView item name (← Txn.lift (v.encode initial))
  let state ← Txn.lift (v.decode checkpoint.state)
  let (state, visited) ← Txn.query fun keys => view keys item checkpoint.vsn.toNat state v.fold
  match visited with
  | some last =>
    setCheckpoint item name ⟨UInt64.ofNat (last + 1), ← Txn.lift (v.encode state)⟩
    return state
  | none => return state

end Item
end Chronicle
