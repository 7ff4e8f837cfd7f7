import Mathlib
import Chronicle.Proofs.Revisions

/-!
# What one change does

A change is about one entity type, and it moves the version of the registry on, whatever becomes of
it. It puts an empty entity type in place, takes it away, adds a revision to it or drops those of an
event type; or nothing happens, because there is no such entity type or because the text is no
schema. What holds of histories of changes follows from this by cases.
-/
namespace Chronicle

/-! ## One entity type of a registry -/

namespace Registry

variable {r r' : Registry} {name : String}

/-- The one is the other with one more change, in one entity type. -/
structure ChangedIn (r r' : Registry) (entity : String)
    (e : Option (EntityType Payload.Schema)) : Prop where
  vsn : r'.vsn = r.vsn + 1
  changed : r'.entity? entity = e
  others : ∀ other, other ≠ entity → r'.entity? other = r.entity? other

theorem changedIn_setEntity {e : EntityType Payload.Schema} (hname : e.name = name) :
    r.ChangedIn (setEntity { r with vsn := r.vsn + 1 } e) name (some e) :=
  ⟨rfl, by rw [entity?_setEntity, if_pos hname], fun other hne => by
    rw [entity?_setEntity, if_neg fun heq => hne (heq.symm.trans hname)]
    rfl⟩

theorem changedIn_erase (r : Registry) (name : String) :
    r.ChangedIn { r with vsn := r.vsn + 1, entities := r.entities.erase name } name none := by
  refine ⟨rfl, ?_, fun other hne => ?_⟩
  · simp [entity?]
  · simp only [entity?, Std.ExtTreeMap.getElem?_erase]
    rw [if_neg (by simpa [Std.LawfulEqCmp.compare_eq_iff_eq] using hne.symm)]

/-- Only the version moves on. -/
theorem changedIn_of_same {e : Option (EntityType Payload.Schema)} (h : r.entity? name = e) :
    r.ChangedIn { r with vsn := r.vsn + 1 } name e :=
  ⟨rfl, h, fun _ _ => rfl⟩

end Registry

/-! ## Changes -/

namespace Change

/-- The entity type that a change is about. -/
def entity : Change → String
  | .entityCreated name | .entityDeleted name => name
  | .eventCreated entity _ _ | .eventUpdated entity _ _ | .eventDeleted entity _ => entity

/-- The change is one of an event type. -/
def isOfEvent : Change → Bool
  | .entityCreated _ | .entityDeleted _ => false
  | .eventCreated _ _ _ | .eventUpdated _ _ _ | .eventDeleted _ _ => true

/-- The revision that a change adds to an entity type, and the text of its data schema. -/
def revision? (e : EntityType Payload.Schema) : Change → Option (Revision × Bytes)
  | .eventCreated _ name schema => some (⟨name, 0⟩, schema)
  | .eventUpdated _ name schema => some (⟨name, e.nextNumber name⟩, schema)
  | _ => none

/-- What a change, with its outcome, makes of the entity type that it is about. -/
inductive Turns : Change → Outcome Unit → Option (EntityType Payload.Schema) →
    Option (EntityType Payload.Schema) → Prop
  | created {name old} : Turns (.entityCreated name) (.ok ()) old (some (.new name))
  | deleted {name old} : Turns (.entityDeleted name) (.ok ()) old none
  | revised {c e revision bytes schema} : c.revision? e = some (revision, bytes) →
      Payload.Schema.parse? bytes = some schema →
      Turns c (.ok ()) (some e) (some (e.insert revision schema).changed)
  | unreadable {c e revision bytes} : c.revision? e = some (revision, bytes) →
      Payload.Schema.parse? bytes = none → Turns c (.error .schemaText) (some e) (some e)
  | dropped {entity event e} :
      Turns (.eventDeleted entity event) (.ok ()) (some e) (some (e.eraseEvent event).changed)
  | absent {c} : c.isOfEvent = true → Turns c (.ok ()) none none

variable {r : Registry} {c : Change} {name event : String} {fault : Fault} {outcome : Outcome Unit}
  {old new : Option (EntityType Payload.Schema)} {e : EntityType Payload.Schema} {bytes : Bytes}

theorem ne_of_isOfEvent (h : c.isOfEvent = true) :
    c ≠ .entityCreated name ∧ c ≠ .entityDeleted name := by
  constructor
  all_goals
    rintro rfl
    cases h

theorem ne_of_entity_ne (h : name ≠ c.entity) :
    c ≠ .entityCreated name ∧ c ≠ .entityDeleted name := by
  constructor
  all_goals
    rintro rfl
    exact h rfl

theorem isOfEvent_of_revision? {revision : Revision} (h : c.revision? e = some (revision, bytes)) :
    c.isOfEvent = true := by
  cases c with
  | entityCreated name => cases h
  | entityDeleted name => cases h
  | _ => rfl

/-- A change adds a revision with the number 0 or the next one. -/
theorem number_le_of_revision? {revision : Revision}
    (h : c.revision? e = some (revision, bytes)) : revision.number ≤ e.nextNumber revision.name := by
  cases c with
  | eventCreated entity event text =>
    cases h
    exact Nat.zero_le _
  | eventUpdated entity event text =>
    cases h
    exact Nat.le_refl _
  | _ => cases h

/-! ### Applying a change -/

theorem turns_addRevision (hnamed : r.Named) {number : EntityType Payload.Schema → Nat}
    (hevent : c.isOfEvent = true)
    (hrevision : ∀ e, c.revision? e = some (⟨event, number e⟩, bytes)) :
    ∃ new, r.ChangedIn
        (addRevision { r with vsn := r.vsn + 1 } c.entity event bytes number).1 c.entity new ∧
      Turns c (addRevision { r with vsn := r.vsn + 1 } c.entity event bytes number).2
        (r.entity? c.entity) new := by
  have hsame : Registry.entity? { r with vsn := r.vsn + 1 } c.entity = r.entity? c.entity := rfl
  rw [addRevision, hsame]
  cases hentity : r.entity? c.entity with
  | none => exact ⟨none, Registry.changedIn_of_same hentity, .absent hevent⟩
  | some e =>
    cases hparse : Payload.Schema.parse? bytes with
    | none =>
      exact ⟨some e, Registry.changedIn_of_same hentity, .unreadable (hrevision e) hparse⟩
    | some schema =>
      exact ⟨_, Registry.changedIn_setEntity (hnamed c.entity e hentity),
        .revised (hrevision e) hparse⟩

/-- Any change, whether it fits the registry or not. -/
theorem turns_apply (hnamed : r.Named) (c : Change) :
    ∃ new, r.ChangedIn (c.apply r).1 c.entity new ∧
      Turns c (c.apply r).2 (r.entity? c.entity) new := by
  cases c with
  | entityCreated name => exact ⟨_, Registry.changedIn_setEntity rfl, .created⟩
  | entityDeleted name => exact ⟨_, r.changedIn_erase name, .deleted⟩
  | eventCreated entity event bytes =>
    exact turns_addRevision (c := .eventCreated entity event bytes) hnamed rfl fun _ => rfl
  | eventUpdated entity event bytes =>
    exact turns_addRevision (c := .eventUpdated entity event bytes) hnamed rfl fun _ => rfl
  | eventDeleted entity event =>
    have hsame : Registry.entity? { r with vsn := r.vsn + 1 } entity = r.entity? entity := rfl
    simp only [apply, Change.entity, hsame]
    cases hentity : r.entity? entity with
    | none => exact ⟨none, Registry.changedIn_of_same hentity, .absent rfl⟩
    | some e => exact ⟨_, Registry.changedIn_setEntity (hnamed entity e hentity), .dropped⟩

theorem addRevision_of_error {entity : String} {number : EntityType Payload.Schema → Nat}
    (h : (addRevision r entity event bytes number).2 = .error fault) :
    (addRevision r entity event bytes number).1 = r := by
  unfold addRevision at h ⊢
  cases hentity : r.entity? entity with
  | none => rfl
  | some e =>
    cases hparse : Payload.Schema.parse? bytes with
    | none => rfl
    | some schema => simp [hentity, hparse] at h

/-- A change that fails leaves everything but the version. -/
theorem apply_of_error (h : (c.apply r).2 = .error fault) :
    (c.apply r).1 = { r with vsn := r.vsn + 1 } := by
  cases c with
  | entityCreated name => cases h
  | entityDeleted name => cases h
  | eventCreated entity event bytes => exact addRevision_of_error h
  | eventUpdated entity event bytes => exact addRevision_of_error h
  | eventDeleted entity event =>
    simp only [apply] at h
    split at h <;> cases h

/-! ### Presence and versions -/

theorem Turns.isSome (h : Turns c outcome old new) :
    new.isSome = if c = .entityCreated c.entity then true
      else if c = .entityDeleted c.entity then false else old.isSome := by
  cases h with
  | created => simp [entity]
  | deleted => simp [entity]
  | revised hrevision hparse => simp [ne_of_isOfEvent (isOfEvent_of_revision? hrevision)]
  | unreadable hrevision hparse => simp [ne_of_isOfEvent (isOfEvent_of_revision? hrevision)]
  | dropped => simp
  | absent hevent => simp [ne_of_isOfEvent hevent]

/-- An entity type is there when it is created, and it stays until it is deleted. -/
theorem isSome_apply (hnamed : r.Named) (c : Change) (name : String) :
    ((c.apply r).1.entity? name).isSome = if c = .entityCreated name then true
      else if c = .entityDeleted name then false else (r.entity? name).isSome := by
  obtain ⟨new, hchanged, hturns⟩ := turns_apply hnamed c
  by_cases heq : name = c.entity
  · rw [heq, hchanged.changed]
    exact hturns.isSome
  · rw [hchanged.others name heq]
    simp [ne_of_entity_ne heq]

/-- A change of an event type of this entity type, which has been applied. -/
def countsFor (name : String) (step : Change × Outcome Unit) : Bool :=
  step.1.isOfEvent && step.1.entity = name && step.2.toOption.isSome

theorem Turns.vsn (h : Turns c outcome old (some e)) :
    c = .entityCreated c.entity ∧ e.vsn = 0 ∨ c ≠ .entityCreated c.entity ∧ ∃ before,
      old = some before ∧
        e.vsn = before.vsn + if countsFor c.entity (c, outcome) then 1 else 0 := by
  cases h with
  | created => exact .inl ⟨rfl, rfl⟩
  | revised hrevision hparse =>
    have hevent := isOfEvent_of_revision? hrevision
    refine .inr ⟨(ne_of_isOfEvent hevent).1, _, rfl, ?_⟩
    simp [countsFor, hevent, Except.toOption, EntityType.changed, EntityType.insert]
  | unreadable hrevision hparse =>
    refine .inr ⟨(ne_of_isOfEvent (isOfEvent_of_revision? hrevision)).1, e, rfl, ?_⟩
    simp [countsFor, Except.toOption]
  | dropped =>
    refine .inr ⟨(ne_of_isOfEvent rfl).1, _, rfl, ?_⟩
    simp [countsFor, isOfEvent, Except.toOption, EntityType.changed, EntityType.eraseEvent]

/-- The version of an entity type starts at 0, and it moves by the changes that count. -/
theorem vsn_entity_apply (hnamed : r.Named) (h : (c.apply r).1.entity? name = some e) :
    c = .entityCreated name ∧ e.vsn = 0 ∨ c ≠ .entityCreated name ∧ ∃ before,
      r.entity? name = some before ∧
        e.vsn = before.vsn + if countsFor name (c, (c.apply r).2) then 1 else 0 := by
  obtain ⟨new, hchanged, hturns⟩ := turns_apply hnamed c
  by_cases heq : name = c.entity
  · rw [heq, hchanged.changed] at h
    rw [h] at hturns
    rw [heq]
    exact hturns.vsn
  · rw [hchanged.others name heq] at h
    refine .inr ⟨(ne_of_entity_ne heq).1, e, h, ?_⟩
    simp [countsFor, Ne.symm heq]

end Change
end Chronicle
