import Mathlib
import Chronicle.Proofs.Run
import Chronicle.Proofs.Slots

/-!
# The registry after a mutation

The registry is read by applying the changes that the slots of its item hold. A mutation adds
one more, and what is read afterwards is the registry before it with that change applied. The
one way in which this fails is a data schema whose text cannot be read back: the mutation
succeeds, and from then on no reading does.
-/
namespace Chronicle

namespace Mutation

/-- The data schema that a mutation writes can be read back from its text. -/
def legible : Mutation → Bool
  | createEventType _ _ schema => (Payload.Schema.parse? schema.write).isSome
  | updateEventType _ _ schema => (Payload.Schema.parse? schema.write).isSome
  | _ => true

/-- A change that the registry admits applies unless its data schema is illegible. -/
theorem apply_change {m : Mutation} {r : Registry} (h : m.Admits r) :
    (m.change.apply r).2 = if m.legible then .ok () else .error .schemaText := by
  have hrevision : ∀ {r : Registry} {entity name : String} {schema : Bytes}
      {number : EntityType Payload.Schema → Nat} {e : EntityType Payload.Schema},
      r.entity? entity = some e → (Change.addRevision r entity name schema number).2 =
        if (Payload.Schema.parse? schema).isSome then .ok () else .error .schemaText := by
    intro r entity name schema number e he
    unfold Change.addRevision
    rw [he]
    cases Payload.Schema.parse? schema <;> rfl
  cases m with
  | createEntityType name => rfl
  | deleteEntityType name => rfl
  | createEventType entity name schema =>
    obtain ⟨e, he, -⟩ := h
    exact hrevision (r := { r with vsn := r.vsn + 1 }) he
  | updateEventType entity name schema =>
    obtain ⟨e, he, -⟩ := h
    exact hrevision (r := { r with vsn := r.vsn + 1 }) he
  | deleteEventType entity name =>
    obtain ⟨e, he, -⟩ := h
    unfold Change.apply
    simp only [change]
    rw [show Registry.entity? { r with vsn := r.vsn + 1 } entity = some e from he]
    rfl

end Mutation

namespace Registry

/-- The visitor of a full reading. -/
def visit : Registry × Option Nat → Nat → Event → Outcome (Visit (Registry × Option Nat)) :=
  Item.view.visit (step fun _ => false)

theorem neverStops_visit : Item.NeverStops visit := by
  intro state slot event last h
  unfold visit Item.view.visit step at h
  rcases hchange : Change.ofEvent event with fault | ⟨_ | change⟩
  · rw [hchange] at h; cases h
  · rw [hchange] at h; cases h
  · rw [hchange] at h
    simp only [bind, Except.bind] at h
    rcases happly : change.apply state.1 with ⟨r, _ | _⟩
    · rw [happly] at h; cases h
    · rw [happly] at h; cases h

theorem visit_eq {event : Event} {change : Change} (h : Change.ofEvent event = .ok (some change))
    (r : Registry) (last : Option Nat) (slot : Nat) :
    visit (r, last) slot event =
      (change.apply r).2.map fun _ => .next ((change.apply r).1, some slot) := by
  unfold visit Item.view.visit step
  rw [h]
  simp only [bind, Except.bind]
  rcases change.apply r with ⟨r, _ | _⟩ <;> rfl

/-- A reading of the registry is a fold over the events that its slots hold. -/
theorem fold_eq_foldEvents {keys : KeySpace} {events : List Event} {stop : Registry → Bool}
    (hstop : stop empty = false)
    (hversion : Item.version keys registryItem = .ok events.length)
    (hstored : Item.Stored keys registryItem 0 events) :
    fold keys stop =
      Prod.fst <$> Item.foldEvents (Item.view.visit (step stop)) events 0 (empty, none) := by
  unfold fold Item.view
  rw [if_neg (by rw [hstop]; exact Bool.false_ne_true), (Item.isThere_of_version hversion).1,
    hversion]
  simp only [bind, Except.bind, if_true]
  rw [Nat.sub_zero, Item.foldSlots_eq hstored]
  show _ = Except.map _ (Item.foldEvents (Item.view.visit (step stop)) _ _ _)
  cases Item.foldEvents (Item.view.visit (step stop)) events 0 (empty, none) <;> rfl

theorem current_eq_foldEvents {keys : KeySpace} {events : List Event}
    (hversion : Item.version keys registryItem = .ok events.length)
    (hstored : Item.Stored keys registryItem 0 events) :
    current keys = Prod.fst <$> Item.foldEvents visit events 0 (empty, none) :=
  fold_eq_foldEvents rfl hversion hstored

theorem stored_of_current {keys : KeySpace} {r : Registry}
    (hthere : Item.isThere keys registryItem = .ok true) (h : current keys = .ok r) :
    ∃ events, Item.version keys registryItem = .ok events.length ∧
      Item.Stored keys registryItem 0 events := by
  rw [current, fold, if_neg Bool.false_ne_true] at h
  obtain ⟨there, hread, h⟩ := Outcome.bind_eq_ok.mp h
  rw [if_pos (Except.ok.inj (hread.symm.trans hthere))] at h
  obtain ⟨_, hview, -⟩ := Outcome.bind_eq_ok.mp h
  obtain ⟨n, hversion, hfold⟩ := Outcome.bind_eq_ok.mp hview
  rw [Nat.sub_zero] at hfold
  obtain ⟨events, rfl, hstored⟩ := Item.stored_of_foldSlots neverStops_visit hfold
  exact ⟨events, hversion, hstored⟩

theorem current_of_not_there {keys : KeySpace}
    (h : Item.isThere keys registryItem = .ok false) : current keys = .ok empty := by
  unfold current fold
  rw [if_neg Bool.false_ne_true, h]
  rfl

variable {s t : Session}

/-- What stands in the slots after one more append. -/
theorem stored_putNext {event : Event} {slot : Nat} {events : List Event}
    (hversion : Item.version s.keys registryItem = .ok events.length)
    (hstored : Item.Stored s.keys registryItem 0 events)
    (h : Item.putNext registryItem event s = .ok slot t) : ∃ id,
      Item.version t.keys registryItem = .ok (events ++ [{ event with id := id }]).length ∧
      Item.Stored t.keys registryItem 0 (events ++ [{ event with id := id }]) := by
  obtain ⟨hslot, id, hextends⟩ := Item.putNext_extends h
  rw [hversion, Except.ok.injEq] at hslot
  subst hslot
  refine ⟨id, by rw [hextends.version, List.length_append, List.length_singleton], ?_⟩
  rw [Item.stored_append, Nat.zero_add]
  exact ⟨hstored.transport fun n e _ hn => hextends.older n e (by omega), hextends.last, trivial⟩

/-- The change in a new last slot is applied last. -/
theorem current_putNext {event : Event} {change : Change} {slot : Nat} {r : Registry}
    (hchange : Change.ofEvent event = .ok (some change))
    (hthere : Item.isThere s.keys registryItem = .ok true) (hcurrent : current s.keys = .ok r)
    (h : Item.putNext registryItem event s = .ok slot t) :
    current t.keys = (change.apply r).2.map fun _ => (change.apply r).1 := by
  obtain ⟨events, hversion, hstored⟩ := stored_of_current hthere hcurrent
  obtain ⟨id, hversion', hstored'⟩ := stored_putNext hversion hstored h
  rw [current_eq_foldEvents hversion hstored] at hcurrent
  rw [current_eq_foldEvents hversion' hstored', Item.foldEvents_append neverStops_visit]
  obtain ⟨⟨found, last⟩, hfold, rfl⟩ := Outcome.map_eq_ok.mp hcurrent
  rw [hfold]
  simp only [bind, Except.bind, Item.foldEvents]
  rw [visit_eq (show Change.ofEvent { event with id := id } = _ from hchange)]
  cases (change.apply found).2 <;> rfl

/-- The creation of the registry's item is no change. -/
theorem current_of_ensure {v : Unit} (h : ensure s = .ok v t) : current t.keys = current s.keys := by
  rcases (ensure_eq_ok h).2 with ⟨-, rfl⟩ | ⟨hthere, hcreate⟩
  · rfl
  · obtain ⟨-, id, hextends⟩ := Item.create_extends hcreate
    have hstored : Item.Stored t.keys registryItem 0
        [{ Event.lifecycle .created [] with id := id }] := ⟨hextends.last, trivial⟩
    rw [current_eq_foldEvents hextends.version hstored, current_of_not_there hthere]
    rfl

end Registry

/-- The registry as it stands after a mutation is the one before it with its change applied,
and when the data schema in the change is illegible there is none to be read any more. -/
theorem Mutation.current_after {m : Mutation} {s t : Session} {n : Nat}
    (hrun : m.run s = .ok n t) : ∃ r, Registry.current s.keys = .ok r ∧ m.Admits r ∧
      Registry.current t.keys =
        if m.legible then .ok (m.change.apply r).1 else .error .schemaText := by
  obtain ⟨r, u, hprepare, hadmits, slot, happend, -⟩ := run_eq_ok.mp hrun
  obtain ⟨hensure, hcurrent⟩ := Registry.prepare_eq_ok.mp hprepare
  obtain ⟨event, hevent, hput⟩ := Registry.append_eq_ok.mp happend
  refine ⟨r, (Registry.current_of_ensure hensure).symm.trans hcurrent, hadmits, ?_⟩
  rw [Registry.current_putNext (Change.ofEvent_toEvent hevent) (Registry.ensure_eq_ok hensure).1
    hcurrent hput, apply_change hadmits]
  split_ifs <;> rfl

/-- A mutation that succeeds leaves a registry that can be read, and mutated again, exactly when
the data schema it writes can be read back. -/
theorem Mutation.readable_after_iff {m : Mutation} {s t : Session} {n : Nat}
    (hrun : m.run s = .ok n t) :
    (∃ r, Registry.current t.keys = .ok r) ↔ m.legible = true := by
  obtain ⟨r, -, -, hafter⟩ := current_after hrun
  rw [hafter]
  cases m.legible with
  | true => simp
  | false => simp

namespace Registry

def withEntity : Session := (createEntityType "a").leaves (.start (.steady 5 1))

theorem readable_after_plain_schema :
    ∃ n t, (Mutation.createEventType "a" "b" .int).run withEntity = .ok n t ∧
      ∃ r, current t.keys = .ok r := by
  obtain ⟨n, t, hrun⟩ := Txn.succeeds_iff.mp
    (show (Mutation.createEventType "a" "b" .int).run.succeeds withEntity = true by decide +kernel)
  exact ⟨n, t, hrun, (Mutation.readable_after_iff hrun).mpr (by decide +kernel)⟩

/-- One level more than a text may be nested. -/
def tooDeep : Payload.Schema := (List.replicate 128 ()).foldl (fun s _ => .map s) .int

/-- A schema that is too deep to be read back is accepted, and the registry is lost. -/
theorem unreadable_after_mutation : ∃ r n t, current withEntity.keys = .ok r ∧
    createEventType "a" "b" tooDeep withEntity = .ok n t ∧
      current t.keys = .error .schemaText := by
  obtain ⟨n, t, hrun⟩ := Txn.succeeds_iff.mp
    (show (createEventType "a" "b" tooDeep).succeeds withEntity = true by decide +kernel)
  have hillegible : (Mutation.createEventType "a" "b" tooDeep).legible = false := by
    decide +kernel
  obtain ⟨r, hbefore, -, hafter⟩ :=
    Mutation.current_after (m := .createEventType "a" "b" tooDeep) hrun
  rw [hillegible, if_neg Bool.false_ne_true] at hafter
  exact ⟨r, n, t, hbefore, hrun, hafter⟩

end Registry
end Chronicle
