import Chronicle.Key
import Chronicle.Session

/-!
# Event log

The shared, append-only log. An append takes the least free index at its timestamp; a read
goes through one partition in order of the identities, page by page.
-/
namespace Chronicle

/-- A log entry: the mark of its kind, its identity and an opaque payload. -/
structure LogEvent where
  mark : UInt8
  id : EventId
  payload : Bytes
  deriving DecidableEq, Repr

/-- An event that is not in the log yet and has no identity of its own. -/
def LogEvent.new (mark : UInt8) (payload : Bytes) : LogEvent := ⟨mark, .zero, payload⟩

instance : Packed LogEvent where
  pack e := do
    return (← Packed.pack e.mark) ++ (← Packed.pack e.id) ++ (← Packed.pack e.payload)
  unpack := do
    let mark ← Packed.unpack
    let id ← Packed.unpack
    let payload ← Packed.unpack
    return ⟨mark, id, payload⟩

/-- Part of a longer reading, and where to go on. -/
structure Page (α : Type) where
  events : α
  next : Option EventId
  deriving DecidableEq, Repr

namespace Log

variable {σ : Type}

/-! ## Appending -/

/-- Looks for a free key from `index` on, trying at most `count` of them. -/
def freeIndex (keys : KeySpace) (partition : UInt8) (timestamp : UInt64) :
    Nat → Nat → Outcome EventId
  | 0, _ => .error (.state (.noFreeIndex partition timestamp))
  | count + 1, index => do
    let id : EventId := ⟨partition, timestamp, UInt16.ofNat index⟩
    if ← keys.contains (Key.log id) then freeIndex keys partition timestamp count (index + 1)
    else return id

def indexCount : Nat := 65536

/-- Appends an event at a timestamp of the caller's choice. The append chooses its identity. -/
def putAt (partition : UInt8) (timestamp : UInt64) (event : LogEvent) : Txn EventId := do
  let id ← Txn.query fun keys => freeIndex keys partition timestamp indexCount 0
  Txn.set (Key.log id) event.payload event.mark
  return id

/-- Appends an event at the time the clock shows. -/
def put (partition : UInt8) (event : LogEvent) : Txn EventId := do
  putAt partition (← Txn.now) event

/-- Writes an event under its own identity, in place of any event there. -/
def replicate (event : LogEvent) : Txn Unit :=
  Txn.set (Key.log event.id) event.payload event.mark

/-! ## Reading -/

def get (keys : KeySpace) (id : EventId) : Outcome LogEvent :=
  match keys.get (Key.log id) with
  | .ok (some entry) => .ok ⟨entry.mark, id, entry.value⟩
  | .ok none => .error (.eventNotFound id)
  | .error (.missingValue _) => .error (.payloadMissing id)
  | .error fault => .error fault

/-- A fold under way: the state, the number of events folded, and where to go on. -/
structure Folding (σ : Type) where
  state : σ
  folded : Nat
  next : Option EventId

/-- Folds one entry. It stops past `last`, and at the first event beyond the page. -/
def foldEntry (last : EventId) (size : Nat) (f : σ → LogEvent → Outcome σ) (s : Folding σ)
    (key : Bytes) (entry : Entry) : Outcome (Visit (Folding σ)) := do
  let id ← EventId.decode key
  if compare id last = .gt then return .stop s
  else if size ≤ s.folded then return .stop { s with next := some id }
  else
    let state ← f s.state ⟨entry.mark, id, entry.value⟩
    return .next ⟨state, s.folded + 1, none⟩

/-- Folds at most `size` events between two identities in the partition of the first. -/
def fold (keys : KeySpace) (first last : EventId) (size : Nat) (init : σ)
    (f : σ → LogEvent → Outcome σ) : Outcome (Page σ) :=
  if size = 0 then .error .emptyPage
  else do
    let s ← keys.fold (Key.log first) (Key.partition first.partition) ⟨init, 0, none⟩
      (foldEntry last size f)
    return ⟨s.state, s.next⟩

/-- The events a step picks, in order. -/
def collect {α : Type} (keys : KeySpace) (first last : EventId) (size : Nat)
    (pick : LogEvent → Outcome (Option α)) : Outcome (Page (List α)) := do
  let page ← fold keys first last size [] fun found event => do
    match ← pick event with
    | some a => return a :: found
    | none => return found
  return ⟨page.events.reverse, page.next⟩

def range (keys : KeySpace) (first last : EventId) (size : Nat) : Outcome (Page (List LogEvent)) :=
  collect keys first last size fun event => .ok (some event)

/-- Like `range`, with only the events that match. The page counts the others too. -/
def rangeMatch (keys : KeySpace) (first last : EventId) (size : Nat) (keep : LogEvent → Bool) :
    Outcome (Page (List LogEvent)) :=
  collect keys first last size fun event => .ok (if keep event then some event else none)

end Log
end Chronicle
