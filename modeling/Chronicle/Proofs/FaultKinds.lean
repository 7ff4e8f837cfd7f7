import Mathlib
import Chronicle.Proofs.Failures

/-!
# Which faults come from where

The reading and writing of what is stored fails in ways of its own. None of these is a fault by
which an operation refuses what it is asked for, so a refusal comes from a check.
-/
namespace Chronicle

namespace Fault

/-- Faults of values, keys and the log that an operation may meet while it writes. -/
def OfWriting : Fault → Prop
  | packed _ | counterWidth _ | keySize | badKey _ | missingValue _ | notAliasEvent | state _ => True
  | _ => False

/-- With the faults of the events that an operation may meet in slots and in the log. -/
def OfReading : Fault → Prop
  | envelope _ | eventNotFound _ | payloadMissing _ | partitionOutOfRange _ => True
  | fault => fault.OfWriting

theorem OfWriting.ofReading {fault : Fault} (h : fault.OfWriting) : fault.OfReading := by
  cases fault <;> first | exact h | exact trivial

end Fault

open Fault (OfWriting OfReading)

/-! ## Outcomes -/

namespace Outcome

variable {α β : Type} {G H : Fault → Prop} {outcome : Outcome α}

/-- The outcome is a result or one of these faults. -/
def FailsIn (G : Fault → Prop) (outcome : Outcome α) : Prop := ∀ fault, outcome = .error fault → G fault

theorem FailsIn.mono (h : FailsIn G outcome) (hGH : ∀ {fault}, G fault → H fault) :
    FailsIn H outcome := fun fault hfault => hGH (h fault hfault)

theorem failsIn_ok (a : α) : FailsIn G (.ok a : Outcome α) := nofun

theorem failsIn_error {fault : Fault} (h : G fault) : FailsIn G (.error fault : Outcome α) := by
  rintro _ ⟨⟩
  exact h

theorem FailsIn.bind_of_ok {f : α → Outcome β} (h : FailsIn G outcome)
    (hf : ∀ a, outcome = .ok a → FailsIn G (f a)) : FailsIn G (outcome >>= f) := by
  cases outcome with
  | error fault => exact failsIn_error (h fault rfl)
  | ok a => exact hf a rfl

theorem FailsIn.bind {f : α → Outcome β} (h : FailsIn G outcome) (hf : ∀ a, FailsIn G (f a)) :
    FailsIn G (outcome >>= f) := h.bind_of_ok fun a _ => hf a

theorem FailsIn.map {f : α → β} (h : FailsIn G outcome) : FailsIn G (f <$> outcome) := by
  cases outcome with
  | error fault => exact failsIn_error (h fault rfl)
  | ok a => exact failsIn_ok (f a)

theorem failsIn_mapError {ε : Type} {f : ε → Fault} (h : ∀ cause, G (f cause)) (found : Except ε α) :
    FailsIn G (found.mapError f) := by
  cases found with
  | error cause => exact failsIn_error (h cause)
  | ok a => exact failsIn_ok a

end Outcome

open Outcome (FailsIn failsIn_ok failsIn_error failsIn_mapError)

/-! ### Values -/

theorem KeySpace.failsIn_get (keys : KeySpace) (key : Bytes) : FailsIn OfWriting (keys.get key) := by
  unfold get
  split_ifs
  · exact failsIn_error trivial
  · cases keys.stored? key with
    | none => exact failsIn_ok _
    | some stored =>
      cases stored with
      | nil => exact failsIn_error trivial
      | cons mark value => exact failsIn_ok _

theorem KeySpace.failsIn_contains (keys : KeySpace) (key : Bytes) :
    FailsIn OfWriting (keys.contains key) := (keys.failsIn_get key).map

theorem failsIn_record {α : Type} [Packed α] (x : α) : FailsIn OfWriting (record x) :=
  failsIn_mapError (fun _ => trivial) _

theorem failsIn_recorded {α : Type} [Packed α] (bytes : Bytes) :
    FailsIn OfWriting (recorded bytes : Outcome α) := failsIn_mapError (fun _ => trivial) _

theorem Counter.failsIn_decode (stored : Bytes) : FailsIn OfWriting (decode stored) := by
  unfold decode
  split_ifs
  · exact failsIn_ok _
  · exact failsIn_error trivial

theorem Event.failsIn_aliasTarget (e : Event) : FailsIn OfWriting e.aliasTarget := by
  unfold aliasTarget
  split_ifs
  · unfold ItemId.decode
    split
    · exact failsIn_ok _
    · exact failsIn_error trivial
  · exact failsIn_error trivial

namespace Item

variable (keys : KeySpace) (item : ItemId)

theorem failsIn_version? : FailsIn OfWriting (version? keys item) := by
  refine (keys.failsIn_get _).bind fun found => ?_
  cases found with
  | none => exact failsIn_ok _
  | some entry => exact (Counter.failsIn_decode _).bind fun _ => failsIn_ok _

theorem failsIn_listAt {α : Type} [Packed α] (key : Bytes) :
    FailsIn OfWriting (listAt keys key : Outcome (List α)) := by
  refine (keys.failsIn_get _).bind fun found => ?_
  cases found with
  | none => exact failsIn_ok _
  | some entry => exact failsIn_recorded _

end Item

/-! ### Events -/

theorem Log.failsIn_freeIndex (keys : KeySpace) (partition : UInt8) (timestamp : UInt64)
    (count index : Nat) : FailsIn OfWriting (freeIndex keys partition timestamp count index) := by
  induction count generalizing index with
  | zero => exact failsIn_error trivial
  | succ count ih =>
    refine (keys.failsIn_contains _).bind fun taken => ?_
    cases taken with
    | false => exact failsIn_ok _
    | true => exact ih (index + 1)

theorem EventId.failsIn_decode (key : Bytes) : FailsIn OfReading (decode key) := by
  unfold decode
  dsimp only
  split_ifs
  · exact failsIn_error trivial
  · exact failsIn_error trivial
  · exact failsIn_ok _
  · exact failsIn_error trivial

theorem Log.failsIn_get (keys : KeySpace) (id : EventId) : FailsIn OfReading (get keys id) := by
  have hkeys := keys.failsIn_get (Key.log id)
  unfold get
  split
  · exact failsIn_ok _
  · exact failsIn_error trivial
  · exact failsIn_error trivial
  · exact failsIn_error (hkeys _ ‹_›).ofReading

theorem LogEvent.failsIn_itemEvent (e : LogEvent) : FailsIn OfReading e.itemEvent :=
  Outcome.FailsIn.bind (failsIn_mapError (fun _ => trivial) _) fun _ => failsIn_ok _

theorem Item.failsIn_slotEvent (keys : KeySpace) (item : ItemId) (slot : Nat) :
    FailsIn OfReading (slotEvent keys item slot) := by
  refine ((keys.failsIn_get _).mono Fault.OfWriting.ofReading).bind fun found => ?_
  cases found with
  | none => exact failsIn_error trivial
  | some entry =>
    exact (EventId.failsIn_decode _).bind fun id => (Log.failsIn_get keys id).bind fun found =>
      found.failsIn_itemEvent.bind fun _ => failsIn_ok _

/-! ## Transactions -/

namespace Txn

variable {α β : Type} {G : Fault → Prop} {m : Txn α}

/-- The transaction succeeds or ends with one of these faults. -/
def FailsIn (G : Fault → Prop) (m : Txn α) : Prop := ∀ ⦃s fault t⦄, m s = .error fault t → G fault

theorem failsIn_pure (a : α) : (pure a : Txn α).FailsIn G := nofun

theorem error_of_query {read : KeySpace → Outcome α} {s t : Session} {fault : Fault}
    (h : query read s = .error fault t) : read s.keys = .error fault := by
  unfold query at h
  cases hread : read s.keys with
  | ok a => rw [hread] at h; cases h
  | error found =>
    rw [hread] at h
    cases h
    rfl

theorem error_of_lift {outcome : Outcome α} {s t : Session} {fault : Fault}
    (h : lift outcome s = .error fault t) : outcome = .error fault := error_of_query h

theorem failsIn_query {read : KeySpace → Outcome α} (h : ∀ keys, Outcome.FailsIn G (read keys)) :
    (query read).FailsIn G := fun s fault _ hm => h s.keys fault (error_of_query hm)

theorem failsIn_lift {outcome : Outcome α} (h : Outcome.FailsIn G outcome) :
    (lift outcome).FailsIn G := failsIn_query fun _ => h

theorem FailsIn.bind {f : α → Txn β} (hm : m.FailsIn G) (hf : ∀ a, (f a).FailsIn G) :
    (m >>= f).FailsIn G := by
  intro s fault t h
  rcases bind_eq_error.mp h with h | ⟨a, u, -, h⟩
  · exact hm h
  · exact hf a h

theorem failsIn_refuse {fault : Fault} (h : G fault) : (refuse fault : Txn α).FailsIn G := by
  rintro s _ t ⟨⟩
  exact h

theorem failsIn_ite {c : Prop} [Decidable c] {n : Txn α} (hm : m.FailsIn G) (hn : n.FailsIn G) :
    (if c then m else n).FailsIn G := by
  split_ifs
  · exact hm
  · exact hn

theorem failsIn_forM {xs : List β} {f : β → Txn Unit} (h : ∀ x, (f x).FailsIn G) :
    (xs.forM f).FailsIn G := by
  induction xs with
  | nil => exact failsIn_pure ()
  | cons x xs ih => exact (h x).bind fun _ => ih

theorem failsIn_set (key value : Bytes) (mark : UInt8) : (set key value mark).FailsIn OfWriting := by
  intro s fault t h
  unfold set at h
  split_ifs at h
  cases h
  trivial

theorem failsIn_delete (key : Bytes) : (delete key).FailsIn OfWriting := by
  intro s fault t h
  unfold delete at h
  split_ifs at h
  cases h
  trivial

theorem failsIn_now : now.FailsIn OfWriting := by
  intro s fault t h
  unfold now at h
  dsimp only at h
  split_ifs at h
  cases h
  trivial

end Txn

/-! ### Writing -/

theorem Log.failsIn_putAt (partition : UInt8) (timestamp : UInt64) (event : LogEvent) :
    (putAt partition timestamp event).FailsIn OfWriting := by
  refine (Txn.failsIn_query fun keys => failsIn_freeIndex keys _ _ _ _).bind fun id => ?_
  refine (Txn.failsIn_set _ _ _).bind fun _ => ?_
  exact Txn.failsIn_pure id

theorem Log.failsIn_put (partition : UInt8) (event : LogEvent) :
    (put partition event).FailsIn OfWriting :=
  Txn.failsIn_now.bind fun _ => failsIn_putAt _ _ _

namespace Item

variable (item : ItemId)

theorem failsIn_setList {α : Type} [Packed α] (key : Bytes) (xs : List α) :
    (setList key xs).FailsIn OfWriting :=
  (Txn.failsIn_lift (failsIn_record xs)).bind fun _ => Txn.failsIn_set _ _ _

theorem failsIn_setVersion (n : Nat) : (setVersion item n).FailsIn OfWriting :=
  Txn.failsIn_ite (Txn.failsIn_set _ _ _) (Txn.failsIn_refuse trivial)

theorem failsIn_initIndex : (initIndex item).FailsIn OfWriting := by
  refine (failsIn_setVersion item 0).bind fun _ => ?_
  refine (failsIn_setList _ _).bind fun _ => ?_
  exact failsIn_setList _ _

theorem failsIn_recordSlot (slot : Nat) (id : EventId) (kind : UInt8) :
    (recordSlot item slot id kind).FailsIn OfWriting :=
  (Txn.failsIn_set _ _ _).bind fun _ => failsIn_setVersion item _

theorem failsIn_teardown : (teardown item).FailsIn OfWriting := by
  refine (Txn.failsIn_query fun keys => failsIn_listAt keys _).bind fun aliases => ?_
  refine (Txn.failsIn_forM fun x => Txn.failsIn_delete _).bind fun _ => ?_
  refine (Txn.failsIn_delete _).bind fun _ => ?_
  refine (Txn.failsIn_query fun keys => failsIn_listAt keys _).bind fun names => ?_
  refine (Txn.failsIn_forM fun name => Txn.failsIn_delete _).bind fun _ => ?_
  refine (Txn.failsIn_delete _).bind fun _ => ?_
  refine (Txn.failsIn_query fun keys => failsIn_version? keys item).bind fun slots => ?_
  refine (Txn.failsIn_forM fun n => Txn.failsIn_delete _).bind fun _ => ?_
  exact Txn.failsIn_delete _

theorem failsIn_link (aliasId : ItemId) : (link item aliasId).FailsIn OfWriting := by
  refine (Txn.failsIn_set _ _ _).bind fun _ => ?_
  refine (Txn.failsIn_query fun keys => failsIn_listAt keys _).bind fun xs => ?_
  exact failsIn_setList _ _

theorem failsIn_unlink (aliasId : ItemId) : (unlink item aliasId).FailsIn OfWriting := by
  refine (Txn.failsIn_delete _).bind fun _ => ?_
  refine (Txn.failsIn_query fun keys => failsIn_listAt keys _).bind fun xs => ?_
  exact failsIn_setList _ _

variable {item}

/-- With a partition for its item, an append comes to writing. -/
theorem failsIn_append {partition : UInt8} (h : item.partition = .ok partition) (slot : Nat)
    (event : Event) : (append item slot event).FailsIn OfWriting := by
  refine (Txn.failsIn_lift (h ▸ failsIn_ok _)).bind fun partition => ?_
  refine (Txn.failsIn_lift (failsIn_record _)).bind fun payload => ?_
  refine (Log.failsIn_put _ _).bind fun id => ?_
  exact failsIn_recordSlot item slot id event.kind

theorem failsIn_setCheckpoint (name : Bytes) (c : Checkpoint) :
    (setCheckpoint item name c).FailsIn OfWriting :=
  (Txn.failsIn_lift (failsIn_record c)).bind fun _ => Txn.failsIn_set _ _ _

theorem failsIn_registerView (name state : Bytes) :
    (registerView item name state).FailsIn OfWriting := by
  refine (failsIn_setCheckpoint name _).bind fun _ => ?_
  refine (Txn.failsIn_query fun keys => failsIn_listAt keys _).bind fun names => ?_
  refine (failsIn_setList _ _).bind fun _ => ?_
  exact Txn.failsIn_pure _

end Item
end Chronicle
