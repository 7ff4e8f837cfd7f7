import Chronicle.KeySpace
import Chronicle.Packed

/-!
# Store files

A whole key space as one packed list of keys and what is stored under them, in key order.
-/
namespace Chronicle.StoreFile

structure Line where
  key : Bytes
  stored : Bytes

instance : Packed Line where
  pack l := do return (← Packed.pack l.key) ++ (← Packed.pack l.stored)
  unpack := do
    let key ← Packed.unpack
    let stored ← Packed.unpack
    return ⟨key, stored⟩

def encode (keys : KeySpace) : Except Packed.Fault Bytes :=
  Packed.encode (keys.toList.map fun entry => Line.mk entry.1 entry.2)

def decode (bytes : Bytes) : Except Packed.Fault KeySpace := do
  let lines : List Line ← Packed.decode bytes
  return lines.foldl (fun keys line => keys.insert line.key line.stored) KeySpace.empty

end Chronicle.StoreFile
