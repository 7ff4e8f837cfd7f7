import Chronicle.KeySpace

/-!
# Sessions and transactions

A session is the key space of a store together with the clock that its appends read. A
transaction is a computation over a session that may fail; what it wrote before failing stays
with it, and `Session.update` drops that again. Clock readings are used up either way.
-/
namespace Chronicle

/-- The readings of a clock in nanoseconds and how many of them have been taken. -/
structure Clock where
  readings : Nat → Nat
  taken : Nat

/-- A clock that shows `start` first and advances by `step` with each reading. -/
def Clock.steady (start step : Nat) : Clock := ⟨fun n => start + n * step, 0⟩

/-- The latest time a timestamp may name. -/
def Clock.limit : Nat := 0x7FFFFFFFFFFFFFFF

structure Session where
  keys : KeySpace
  clock : Clock

abbrev Txn (α : Type) := EStateM Fault Session α

namespace Txn

variable {α : Type}

/-- Runs a reading on the key space as the transaction sees it. -/
def query (read : KeySpace → Outcome α) : Txn α := fun s =>
  match read s.keys with
  | .ok a => .ok a s
  | .error fault => .error fault s

/-- A result that does not depend on the store. -/
def lift (outcome : Outcome α) : Txn α := query fun _ => outcome

def refuse (fault : Fault) : Txn α := throw fault

/-- The longest key that can be written. -/
def keyLimit : Nat := 511

def set (key value : Bytes) (mark : UInt8) : Txn Unit := fun s =>
  if key = [] ∨ keyLimit < key.length then .error .keySize s
  else .ok () { s with keys := s.keys.insert key (Entry.stored ⟨mark, value⟩) }

/-- Deleting what is not there changes nothing. -/
def delete (key : Bytes) : Txn Unit := fun s =>
  if key = [] then .error .keySize s else .ok () { s with keys := s.keys.erase key }

/-- Takes a clock reading. -/
def now : Txn UInt64 := fun s =>
  let reading := s.clock.readings s.clock.taken
  let s := { s with clock := { s.clock with taken := s.clock.taken + 1 } }
  if reading ≤ Clock.limit then .ok (UInt64.ofNat reading) s
  else .error (.state .clockOutOfRange) s

end Txn

namespace Session

variable {α : Type}

def start (clock : Clock) : Session := ⟨KeySpace.empty, clock⟩

/-- Gives up what a transaction wrote between two states of a session. -/
def abort (before after : Session) : Session := { before with clock := after.clock }

/-- Commits on success and aborts on a fault. -/
def update (s : Session) (body : Txn α) : Outcome α × Session :=
  match body.run s with
  | .ok a after => (.ok a, after)
  | .error fault after => (.error fault, s.abort after)

def view (s : Session) (read : KeySpace → Outcome α) : Outcome α := read s.keys

end Session
end Chronicle
