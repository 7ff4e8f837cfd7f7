import Mathlib
import Chronicle.Proofs.RegistryReadable
import Chronicle.Proofs.Streams

/-!
# Reading the registry

A reading of the registry goes through the changes in the slots of its item, in order, as far as it
needs to. What it answers depends on these changes alone.
-/
namespace Chronicle.Registry

variable {r : Registry} {ms : List Mutation} {stop : Registry → Bool} {keys : KeySpace}
  {stream : Option (List Event)}

/-! ## Changes one after the other -/

/-- Applies the changes of mutations until `stop` holds. -/
def readUntil (stop : Registry → Bool) : Registry → List Mutation → Outcome Registry
  | r, [] => .ok r
  | r, m :: ms =>
    if stop r then .ok r
    else do
      (m.change.apply r).2
      readUntil stop (m.change.apply r).1 ms

theorem readUntil_of_stop (h : stop r = true) (ms : List Mutation) :
    readUntil stop r ms = .ok r := by
  cases ms with
  | nil => rfl
  | cons m ms => rw [readUntil, if_pos h]

theorem readUntil_cons (h : stop r = false) (m : Mutation) (ms : List Mutation) :
    readUntil stop r (m :: ms) = (do
      (m.change.apply r).2
      readUntil stop (m.change.apply r).1 ms) := by
  rw [readUntil, h, if_neg Bool.false_ne_true]

/-! ## Changes in the slots -/

/-- The event records the change of the mutation. -/
def Records (event : Event) (m : Mutation) : Prop := Change.ofEvent event = .ok (some m.change)

/-- The first event of the item changes nothing, and no reading stops at it. -/
theorem foldEvents_created {first : Event} {events : List Event}
    (hfirst : Change.ofEvent first = .ok none) (last : Option Nat) (slot : Nat) :
    Item.foldEvents (Item.view.visit (step stop)) (first :: events) slot (r, last) =
      Item.foldEvents (Item.view.visit (step stop)) events (slot + 1) (r, some slot) := by
  have hvisit : Item.view.visit (step stop) (r, last) slot first = .ok (.next (r, some slot)) := by
    unfold Item.view.visit step
    rw [hfirst]
    rfl
  rw [Item.foldEvents, hvisit]
  rfl

/-- The events of the registry's item are those of the mutations, after some that hold no change. -/
def Written (ms : List Mutation) : Option (List Event) → Prop
  | none => ms = []
  | some events => ∃ quiet rest, events = quiet ++ rest ∧
      (∀ e ∈ quiet, Change.ofEvent e = .ok none) ∧ List.Forall₂ Records rest ms

theorem foldEvents_quiet {quiet rest : List Event}
    (hquiet : ∀ e ∈ quiet, Change.ofEvent e = .ok none) (slot : Nat) (last : Option Nat) :
    ∃ last', Item.foldEvents (Item.view.visit (step stop)) (quiet ++ rest) slot (r, last) =
      Item.foldEvents (Item.view.visit (step stop)) rest (slot + quiet.length) (r, last') := by
  induction quiet generalizing slot last with
  | nil => exact ⟨last, rfl⟩
  | cons e quiet ih =>
    obtain ⟨last', h⟩ := ih (fun e he => hquiet e (List.mem_cons_of_mem _ he)) (slot + 1) (some slot)
    refine ⟨last', ?_⟩
    rw [List.cons_append, foldEvents_created (hquiet e List.mem_cons_self), h, List.length_cons,
      Nat.add_right_comm, Nat.add_assoc]

theorem foldEvents_eq_readUntil {events : List Event} (hrecords : List.Forall₂ Records events ms)
    (hstop : stop r = false) (slot : Nat) (last : Option Nat) :
    Prod.fst <$> Item.foldEvents (Item.view.visit (step stop)) events slot (r, last) =
      readUntil stop r ms := by
  induction hrecords generalizing r slot last with
  | nil => rfl
  | @cons event m events ms hrecord _ ih =>
    have hvisit : Item.view.visit (step stop) (r, last) slot event =
        (m.change.apply r).2.map fun _ => if stop (m.change.apply r).1
          then .stop ((m.change.apply r).1, some slot)
          else .next ((m.change.apply r).1, some slot) := by
      unfold Item.view.visit step
      rw [show Change.ofEvent event = .ok (some m.change) from hrecord]
      cases happly : (m.change.apply r).2 with
      | error fault => simp [happly, bind, Except.bind, Except.map]
      | ok _ =>
        by_cases hnow : stop (m.change.apply r).1 = true <;>
          simp [happly, hnow, bind, Except.bind, Except.map, pure, Except.pure]
    rw [Item.foldEvents, hvisit, readUntil_cons hstop]
    cases (m.change.apply r).2 with
    | error fault => rfl
    | ok _ =>
      by_cases hnow : stop (m.change.apply r).1 = true
      · simp [hnow, Except.map, bind, Except.bind, readUntil_of_stop hnow, Functor.map]
      · rw [Bool.not_eq_true] at hnow
        rw [← ih hnow (slot + 1) (some slot)]
        simp [hnow, Except.map, bind, Except.bind]

theorem fold_eq_readUntil (hholds : Item.Holds keys registryItem stream)
    (hwritten : Written ms stream) (stop : Registry → Bool) :
    fold keys stop = readUntil stop empty ms := by
  cases hempty : stop empty with
  | true => rw [fold, hempty, if_pos rfl, readUntil_of_stop hempty]
  | false =>
    cases stream with
    | none =>
      rw [show ms = [] from hwritten, fold, hempty, show Item.isThere keys registryItem = _ from hholds]
      rfl
    | some events =>
      obtain ⟨hversion, hstored, -⟩ := hholds
      obtain ⟨quiet, rest, rfl, hquiet, hrecords⟩ := hwritten
      obtain ⟨last, hskip⟩ := foldEvents_quiet hquiet 0 none
      rw [fold_eq_foldEvents hempty hversion hstored, hskip, foldEvents_eq_readUntil hrecords hempty]

end Chronicle.Registry
