import Mathlib
import Chronicle.Proofs.Replay

/-!
# Slots point into the log

In the index of an item only a slot holds something that reads as a log key: counters, lists
and checkpoints never have the length of one. So an index value that names a log entry was put
there by a slot, and the entry is there. This holds in every store that the operations and the
takeover of another store's log can build up, also when they fail half-way and what they wrote
is kept.
-/
namespace Chronicle

/-- The log has all the entries that values of indexes name. -/
def Sound (keys : KeySpace) : Prop :=
  ∀ key mark id, key.head? = some Key.itemTag → keys.stored? key = some (mark :: Key.log id) →
    keys.stored? (Key.log id) ≠ none

namespace Sound

variable {keys : KeySpace}

theorem empty : Sound KeySpace.empty := fun _ _ _ _ h => absurd h (by simp)

theorem insert_log (h : Sound keys) (id : EventId) (stored : Bytes) :
    Sound (keys.insert (Key.log id) stored) := by
  intro key mark other hhead hstored
  rw [KeySpace.stored?_insert_of_ne] at hstored
  · have hother := h _ _ _ hhead hstored
    rw [KeySpace.stored?_insert]
    split_ifs
    · simp
    · exact hother
  · rintro rfl
    exact absurd hhead (by simp; decide)

/-- A new value outside the log. In an index it names no log entry but those that are there. -/
theorem insert {key value : Bytes} (h : Sound keys) (mark : UInt8)
    (hkey : key.head? ≠ some Key.logTag)
    (hvalue : key.head? = some Key.itemTag → ∀ id, value = Key.log id →
      keys.stored? (Key.log id) ≠ none) :
    Sound (keys.insert key (mark :: value)) := by
  intro other m id hhead hstored
  rw [KeySpace.stored?_insert_of_ne]
  · rw [KeySpace.stored?_insert] at hstored
    split_ifs at hstored with heq
    · rw [Option.some.injEq, List.cons.injEq] at hstored
      exact hvalue (heq ▸ hhead) id hstored.2
    · exact h _ _ _ hhead hstored
  · rintro rfl
    exact hkey rfl

theorem erase {key : Bytes} (h : Sound keys) (hkey : key.head? ≠ some Key.logTag) :
    Sound (keys.erase key) := by
  intro other m id hhead hstored
  rw [KeySpace.stored?_erase_of_ne]
  · rw [KeySpace.stored?_erase] at hstored
    split_ifs at hstored
    exact h _ _ _ hhead hstored
  · rintro rfl
    exact hkey rfl

theorem write {F : Bytes → Prop} {s t : Session} (h : Sound s.keys) (hwrite : s.Write F t) :
    Sound t.keys := by
  cases hwrite with
  | tick => exact h
  | log stored hF hfree => exact h.insert_log _ stored
  | slot mark hF hlog =>
    exact h.insert mark (Key.head?_index_ne _ _ _) fun _ id hid => Key.log_injective hid ▸ hlog
  | value hF hlength =>
    refine h.insert 0 (Key.head?_index_ne _ _ _) fun _ id hid => ?_
    rw [hid, Key.length_log] at hlength
    exact absurd rfl hlength
  | point item hF =>
    exact h.insert 0 (Key.head?_pointer_ne _) fun hhead => absurd hhead (by simp; decide)
  | erase hF hhead => exact h.erase hhead

theorem writes {F : Bytes → Prop} {s t : Session} (h : Sound s.keys) (hwrites : s.Writes F t) :
    Sound t.keys := by
  induction hwrites with
  | refl => exact h
  | tail _ hlast ih => exact ih.write hlast

theorem withLog (h : Sound keys) (events : List LogEvent) : Sound (keys.withLog events) := by
  induction events generalizing keys with
  | nil => exact h
  | cons e events ih => exact ih (h.insert_log e.id _)

end Sound

/-! ## Reachable stores -/

/-- What a store can hold after any operations and takeovers, with any clocks. What fails may
leave its writes behind: the caller of a transaction is free to go on after a fault. An index is
rebuilt for events in the log only. -/
inductive Reachable : KeySpace → Prop
  | empty : Reachable KeySpace.empty
  | run {s : Session} (h : Reachable s.keys) (op : Op) : Reachable (op.run.leaves s).keys
  | logged {s : Session} (h : Reachable s.keys) (e : LogEvent) :
      Reachable ((Log.replicate e).leaves s).keys
  | applied {s : Session} (h : Reachable s.keys) (events : List LogEvent) :
      Reachable ((Replication.apply events).leaves s).keys
  | indexed {s : Session} (h : Reachable s.keys) {e : LogEvent}
      (hlog : s.keys.stored? (Key.log e.id) ≠ none) : Reachable ((Item.replicate e).leaves s).keys

theorem sound_of_reachable {keys : KeySpace} (h : Reachable keys) : Sound keys := by
  induction h with
  | empty => exact Sound.empty
  | run h op ih => exact ih.writes (Txn.Keeps.writes_leaves op.writes _)
  | @logged s h e ih =>
    rw [Txn.leaves_of_ok (Log.replicate_eq e s)]
    exact ih.withLog [e]
  | applied h events ih => exact (ih.withLog events).writes (Replication.writes_apply events _)
  | indexed h hlog ih =>
    exact ih.writes (Item.writes_replicate (F := fun _ => True) (fun _ _ => trivial)
      (fun _ => trivial) hlog _ .refl)

end Chronicle
