import Chronicle.Fault

/-!
# Keys

One ordered key space holds three kinds of entries, told apart by the first byte.

* log events, under `Key.log`: partition, timestamp and index, so that the keys of a
  partition stand together and in order of their identities;
* the index of an item: its version counter, its alias list, its slots, the list of its
  views and one entry for each view;
* alias pointers, under `Key.pointer`.

All numbers are written most significant byte first, so the order of keys is the order of
what they name.
-/
namespace Chronicle

namespace Key

def logTag : UInt8 := 'e'.toUInt8
def itemTag : UInt8 := 'i'.toUInt8
def aliasTag : UInt8 := 'a'.toUInt8

def versionMark : UInt8 := 'v'.toUInt8
def aliasesMark : UInt8 := 'a'.toUInt8
def slotMark : UInt8 := 'e'.toUInt8
def viewMark : UInt8 := 's'.toUInt8

/-- What the keys of all log events of a partition begin with. -/
def partition (partition : UInt8) : Bytes := logTag :: Bytes.bigEndian 2 partition.toNat

def log (id : EventId) : Bytes :=
  partition id.partition ++ Bytes.bigEndian 8 id.timestamp.toNat ++ Bytes.bigEndian 2 id.index.toNat

def logLength : Nat := 13

end Key

namespace ItemId

def encode (id : ItemId) : Bytes := Bytes.bigEndian 2 id.tag.toNat ++ id.name

def decode : Bytes → Outcome ItemId
  | a :: b :: name => .ok ⟨UInt16.ofNat (Bytes.bigEndianValue [a, b]), name⟩
  | bytes => .error (.badKey (.itemIdLength bytes.length))

/-- The log partition that takes the events of the item. -/
def partition (id : ItemId) : Outcome UInt8 :=
  if id.tag.toNat < 256 then .ok id.tag.toUInt8 else .error (.partitionOutOfRange id.tag)

end ItemId

namespace EventId

/-- Reads a log key. -/
def decode (key : Bytes) : Outcome EventId :=
  if key.length ≠ Key.logLength then .error (.badKey (.logKeyLength key.length))
  else if key.head? ≠ some Key.logTag then .error (.badKey (.notLogKey (key.headD 0)))
  else
    let partition := Bytes.bigEndianValue ((key.drop 1).take 2)
    let timestamp := Bytes.bigEndianValue ((key.drop 3).take 8)
    let index := Bytes.bigEndianValue (key.drop 11)
    if partition < 256 then
      .ok ⟨UInt8.ofNat partition, UInt64.ofNat timestamp, UInt16.ofNat index⟩
    else .error (.partitionOutOfRange (UInt16.ofNat partition))

end EventId

namespace Key

/-- A key of an item's index. -/
def index (item : ItemId) (mark : UInt8) (suffix : Bytes) : Bytes :=
  itemTag :: item.encode ++ mark :: suffix

def version (item : ItemId) : Bytes := index item versionMark []
def aliases (item : ItemId) : Bytes := index item aliasesMark []
def slot (item : ItemId) (slot : UInt64) : Bytes :=
  index item slotMark (Bytes.bigEndian 8 slot.toNat)
def views (item : ItemId) : Bytes := index item viewMark []
def view (item : ItemId) (name : Bytes) : Bytes := index item viewMark name
def pointer (aliasId : ItemId) : Bytes := aliasTag :: aliasId.encode

end Key

/-- Counters are stored as eight bytes, most significant first. -/
def Counter.encode (n : UInt64) : Bytes := Bytes.bigEndian 8 n.toNat

def Counter.decode (stored : Bytes) : Outcome UInt64 :=
  if stored.length = 8 then .ok (UInt64.ofNat (Bytes.bigEndianValue stored))
  else .error (.counterWidth stored.length)

end Chronicle
