import Chronicle.Text.Utf8

/-!
# Identities

A log event is identified by its partition, its timestamp in nanoseconds and an index that
tells events of one nanosecond apart; an item by a type tag and a name chosen by the caller.
Both are ordered field by field.
-/
namespace Chronicle

structure EventId where
  partition : UInt8
  timestamp : UInt64
  index : UInt16
  deriving DecidableEq, Repr, Inhabited

namespace EventId

def first (partition : UInt8) : EventId := ⟨partition, 0, 0⟩

def last (partition : UInt8) : EventId := ⟨partition, 0xFFFFFFFFFFFFFFFF, 0xFFFF⟩

def zero : EventId := ⟨0, 0, 0⟩

instance : Ord EventId where
  compare a b :=
    ((compare a.partition b.partition).then (compare a.timestamp b.timestamp)).then
      (compare a.index b.index)

def text (id : EventId) : String := s!"{id.partition}:{id.timestamp}:{id.index}"

end EventId

structure ItemId where
  tag : UInt16
  name : Bytes
  deriving DecidableEq, Repr, Inhabited

namespace ItemId

instance : Ord ItemId where
  compare a b := (compare a.tag b.tag).then (compare a.name b.name)

/-- Same type tag, and the name begins with the name of `stem`. -/
def extends? (id stem : ItemId) : Bool := id.tag = stem.tag ∧ stem.name.isPrefixOf id.name

def text (id : ItemId) : String := s!"{id.tag}/{Utf8.lossy id.name}"

end ItemId
end Chronicle
