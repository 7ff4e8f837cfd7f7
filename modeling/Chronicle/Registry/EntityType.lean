import Std.Data.ExtTreeMap

/-!
# Entity types

An entity type has event types, and an event type has revisions with numbers from 0 on. A
revision stays when a newer one is added, so that older payloads can still be read.
-/
namespace Chronicle

structure Revision where
  name : String
  number : Nat
  deriving DecidableEq, Repr

namespace Revision

/-- By name, and then by number. -/
instance : Ord Revision := ⟨compareLex (compareOn Revision.name) (compareOn Revision.number)⟩

instance : Std.TransOrd Revision :=
  inferInstanceAs (Std.TransCmp (compareLex (compareOn Revision.name) (compareOn Revision.number)))

instance : Std.LawfulEqOrd Revision where
  compare_self := Std.ReflCmp.compare_self
  eq_of_compare := by
    rintro ⟨a, m⟩ ⟨b, n⟩ h
    have h : (compare a b).then (compare m n) = .eq := h
    rw [Ordering.then_eq_eq] at h
    have hname : a = b := Std.LawfulEqOrd.eq_of_compare h.1
    have hnumber : m = n := Std.LawfulEqOrd.eq_of_compare h.2
    rw [hname, hnumber]

end Revision

/-- `vsn` counts the changes of event types since the entity type was created. -/
structure EntityType (σ : Type) where
  name : String
  vsn : Nat
  revisions : Std.ExtTreeMap Revision σ

namespace EntityType

variable {σ : Type}

def new (name : String) : EntityType σ := ⟨name, 0, ∅⟩

def get? (e : EntityType σ) (name : String) (number : Nat) : Option σ :=
  e.revisions[(⟨name, number⟩ : Revision)]?

/-- All revisions in order. -/
def toList (e : EntityType σ) : List (Revision × σ) := e.revisions.toList

/-- The newest revision of an event type. -/
def latest? (e : EntityType σ) (name : String) : Option (Revision × σ) :=
  (e.toList.filter fun entry => entry.1.name = name).getLast?

def hasEvent (e : EntityType σ) (name : String) : Bool := (e.latest? name).isSome

/-- The number that the next revision of an event type gets. -/
def nextNumber (e : EntityType σ) (name : String) : Nat :=
  match e.latest? name with
  | some (revision, _) => revision.number + 1
  | none => 0

def insert (e : EntityType σ) (revision : Revision) (schema : σ) : EntityType σ :=
  { e with revisions := e.revisions.insert revision schema }

/-- Drops all revisions of an event type. -/
def eraseEvent (e : EntityType σ) (name : String) : EntityType σ :=
  { e with revisions := e.revisions.filter fun revision _ => revision.name ≠ name }

def changed (e : EntityType σ) : EntityType σ := { e with vsn := e.vsn + 1 }

end EntityType
end Chronicle
