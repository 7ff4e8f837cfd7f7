import Chronicle.Json.Term

/-!
# Store settings

Where a store lies and how it is opened, written as a JSON object in a fixed order of its
members or read from one in any order, or from an array of the values. All but the path may
be left out.
-/
namespace Chronicle

open Json (Term)

/-- How much of a commit reaches the disk before it returns. -/
inductive SyncMode
  | full
  | noMetaSync
  | noSync
  deriving DecidableEq, Repr

namespace SyncMode

def name : SyncMode → String
  | .full => "Full"
  | .noMetaSync => "NoMetaSync"
  | .noSync => "NoSync"

def ofName? (name : String) : Option SyncMode :=
  [SyncMode.full, .noMetaSync, .noSync].find? fun mode => mode.name = name

/-- A name stands alone or as an object's one member, with null for its content. -/
def ofTerm? : Term → Option SyncMode
  | .string raw => (Json.Quoted.read? raw).bind ofName?
  | .object [(key, .null)] => (Json.Quoted.read? key).bind ofName?
  | _ => none

theorem ofName?_name : ∀ mode : SyncMode, ofName? mode.name = some mode := by
  rintro (_ | _ | _) <;> decide

end SyncMode

structure Settings where
  path : String
  mapSize : UInt64 := 10 * 1024 * 1024 * 1024
  syncMode : SyncMode := .noMetaSync
  maxReaders : UInt32 := 126
  deriving DecidableEq, Repr

namespace Settings

/-- A whole number from 0 to `limit`, written without point and exponent. -/
def number? (limit : Nat) : Term → Option Nat
  | .number n =>
    match n.int? with
    | some i => if 0 ≤ i ∧ i ≤ limit then some i.toNat else none
    | none => none
  | _ => none

def mapSize? (t : Term) : Option UInt64 := UInt64.ofNat <$> number? 0xFFFFFFFFFFFFFFFF t
def maxReaders? (t : Term) : Option UInt32 := UInt32.ofNat <$> number? 0xFFFFFFFF t

/-- A setting that may be left out but not be given twice. -/
def setting? {α : Type} (read : Term → Option α) (default : α) : List Term → Option α
  | [] => some default
  | [t] => read t
  | _ => none

def ofParts? (path mapSize syncMode maxReaders : List Term) : Option Settings := do
  let path ← match path with
    | [t] => t.string?
    | _ => none
  let usual : Settings := { path }
  let mapSize ← setting? mapSize? usual.mapSize mapSize
  let syncMode ← setting? SyncMode.ofTerm? usual.syncMode syncMode
  let maxReaders ← setting? maxReaders? usual.maxReaders maxReaders
  return ⟨path, mapSize, syncMode, maxReaders⟩

def ofTerm? : Term → Option Settings
  | .array items =>
    if items.length ≤ 4 then
      ofParts? (items.take 1) ((items.drop 1).take 1) ((items.drop 2).take 1) (items.drop 3)
    else none
  | .object members => do
    let members ← Term.named? members
    ofParts? (Term.allNamed "path" members) (Term.allNamed "map_size" members)
      (Term.allNamed "sync_mode" members) (Term.allNamed "max_readers" members)
  | _ => none

def parse? (text : Bytes) : Option Settings := (Term.parse? text).bind ofTerm?

def term (s : Settings) : Term :=
  .object [(Utf8.encode "path", Term.text s.path),
    (Utf8.encode "map_size", .number (.ofNat s.mapSize.toNat)),
    (Utf8.encode "sync_mode", Term.text s.syncMode.name),
    (Utf8.encode "max_readers", .number (.ofNat s.maxReaders.toNat))]

def text (s : Settings) : String := Utf8.lossy s.term.write

end Settings
end Chronicle
