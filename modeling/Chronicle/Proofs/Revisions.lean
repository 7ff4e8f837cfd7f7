import Mathlib
import Chronicle.Proofs.Run

/-!
# Revisions of event types

What a mutation does to the revisions that a registry has: it adds one under a number of its own,
or it removes those of an event type or of an entity type. All others stay as they are.
-/
namespace Chronicle

/-! ## Entity types -/

namespace EntityType

variable {σ : Type} {e : EntityType σ} {name other : String} {number : Nat} {schema : σ}

theorem get?_insert (revision : Revision) : (e.insert revision schema).get? name number =
    if revision = ⟨name, number⟩ then some schema else e.get? name number := by
  simp [get?, insert, Std.ExtTreeMap.getElem?_insert, Std.LawfulEqCmp.compare_eq_iff_eq]

theorem get?_eraseEvent_of_ne (h : name ≠ other) :
    (e.eraseEvent other).get? name number = e.get? name number := by
  simp only [get?, eraseEvent, Std.ExtTreeMap.getElem?_filter', ne_eq, h, not_false_eq_true,
    decide_true]
  cases e.revisions[(⟨name, number⟩ : Revision)]? <;> rfl

theorem mem_revisions (h : e.get? name number = some schema) :
    (⟨name, number⟩, schema) ∈ e.toList.filter fun entry => entry.1.name = name := by
  refine List.mem_filter.mpr ⟨?_, by simp⟩
  exact Std.ExtTreeMap.mem_toList_iff_getElem?_eq_some.mpr h

theorem hasEvent_of_get? (h : e.get? name number = some schema) : e.hasEvent name = true := by
  have hne : (e.toList.filter fun entry => entry.1.name = name) ≠ [] :=
    List.ne_nil_of_mem (mem_revisions h)
  rw [hasEvent, latest?, List.getLast?_isSome]
  exact hne

/-- The next number lies above all numbers in use. -/
theorem lt_nextNumber (h : e.get? name number = some schema) : number < e.nextNumber name := by
  have hsorted : (e.toList.filter fun entry => entry.1.name = name).Pairwise
      fun a b => compare a.1 b.1 = .lt := Std.ExtTreeMap.ordered_keys_toList.filter _
  have hmem := mem_revisions h
  obtain ⟨⟨revision, newest⟩, hlatest⟩ : ∃ last, e.latest? name = some last :=
    Option.isSome_iff_exists.mp (hasEvent_of_get? h)
  rw [nextNumber, hlatest]
  change number < revision.number + 1
  obtain ⟨older, hlist⟩ := List.getLast?_eq_some_iff.mp hlatest
  have hname : revision.name = name := by
    have hlast : (revision, newest) ∈ e.toList.filter fun entry => entry.1.name = name := by
      rw [hlist]
      exact List.mem_append_right _ List.mem_cons_self
    simpa using (List.mem_filter.mp hlast).2
  rw [hlist] at hmem hsorted
  rcases List.mem_append.mp hmem with hold | hlast
  · have hlt : compare (⟨name, number⟩ : Revision) revision = .lt :=
      (List.pairwise_append.mp hsorted).2.2 _ hold _ List.mem_cons_self
    change (compare name revision.name).then (compare number revision.number) = .lt at hlt
    have hself : compare name name = .eq := Std.ReflCmp.compare_self
    rw [hname, hself, Ordering.eq_then, Nat.compare_eq_lt] at hlt
    omega
  · rw [List.mem_singleton, Prod.mk.injEq] at hlast
    rw [← hlast.1]
    exact Nat.lt_succ_self number

end EntityType

/-! ## Registries -/

namespace Registry

variable {r : Registry} {entity name : String} {number : Nat} {schema : Payload.Schema}

/-- The data schema of a revision. -/
def schema? (r : Registry) (entity name : String) (number : Nat) : Option Payload.Schema :=
  (r.entity? entity).bind fun e => e.get? name number

theorem schema?_eq_some : r.schema? entity name number = some schema ↔
    ∃ e, r.entity? entity = some e ∧ e.get? name number = some schema := Option.bind_eq_some_iff

theorem entity?_setEntity (e : EntityType Payload.Schema) : (r.setEntity e).entity? name =
    if e.name = name then some e else r.entity? name := by
  simp [entity?, setEntity, Std.ExtTreeMap.getElem?_insert, Std.LawfulEqCmp.compare_eq_iff_eq]

/-- Every entity type stands under its name. -/
def Named (r : Registry) : Prop := ∀ name e, r.entity? name = some e → e.name = name

theorem named_empty : empty.Named := by
  intro name e h
  simp [entity?, empty] at h

theorem Named.setEntity (h : r.Named) (e : EntityType Payload.Schema) : (r.setEntity e).Named := by
  intro name found hfound
  rw [entity?_setEntity] at hfound
  split_ifs at hfound with heq
  · rw [Option.some.injEq] at hfound
    rw [← hfound]
    exact heq
  · exact h name found hfound

theorem Named.addRevision (h : r.Named) (entity name : String) (bytes : Bytes)
    (number : EntityType Payload.Schema → Nat) :
    (Change.addRevision r entity name bytes number).1.Named := by
  unfold Change.addRevision
  cases r.entity? entity with
  | none => exact h
  | some e =>
    cases Payload.Schema.parse? bytes with
    | none => exact h
    | some schema => exact h.setEntity _

theorem Named.apply (h : r.Named) (c : Change) : (c.apply r).1.Named := by
  have hnext : Named { r with vsn := r.vsn + 1 } := h
  cases c with
  | entityCreated name => exact hnext.setEntity _
  | entityDeleted name =>
    intro other e he
    refine h other e ?_
    simp only [Change.apply, entity?, Std.ExtTreeMap.getElem?_erase] at he
    split_ifs at he
    exact he
  | eventCreated entity name bytes => exact hnext.addRevision entity name bytes _
  | eventUpdated entity name bytes => exact hnext.addRevision entity name bytes _
  | eventDeleted entity name =>
    simp only [Change.apply]
    split
    · exact hnext
    · exact hnext.setEntity _

theorem schema?_setEntity {e : EntityType Payload.Schema}
    (h : r.schema? entity name number = some schema)
    (he : e.name = entity → e.get? name number = some schema) :
    (r.setEntity e).schema? entity name number = some schema := by
  obtain ⟨old, hold, hget⟩ := schema?_eq_some.mp h
  rw [schema?_eq_some, entity?_setEntity]
  split_ifs with heq
  · exact ⟨e, rfl, he heq⟩
  · exact ⟨old, hold, hget⟩

/-- A revision with a number of its own takes no other's place. -/
theorem schema?_addRevision {other event : String} {bytes : Bytes}
    {numberOf : EntityType Payload.Schema → Nat} (hnamed : r.Named)
    (h : r.schema? entity name number = some schema)
    (hfresh : ∀ e, r.entity? other = some e → e.get? event (numberOf e) = none) :
    (Change.addRevision r other event bytes numberOf).1.schema? entity name number = some schema := by
  unfold Change.addRevision
  cases hother : r.entity? other with
  | none => exact h
  | some e =>
    cases Payload.Schema.parse? bytes with
    | none => exact h
    | some found =>
      apply schema?_setEntity h
      intro hsame
      have hentity : entity = other := hsame.symm.trans (hnamed other e hother)
      obtain ⟨old, hold, hget⟩ := schema?_eq_some.mp h
      rw [hentity, hother, Option.some.injEq] at hold
      change (e.insert ⟨event, numberOf e⟩ found).get? name number = some schema
      rw [EntityType.get?_insert]
      split_ifs with hrevision
      · rw [Revision.mk.injEq] at hrevision
        rw [← hold, ← hrevision.1, ← hrevision.2, hfresh e hother] at hget
        cases hget
      · rw [hold]
        exact hget

end Registry

/-! ## Mutations -/

namespace Mutation

variable {r : Registry} {entity name : String} {number : Nat} {schema : Payload.Schema}

/-- The mutation deletes the event type or its entity type. -/
def Removes (entity name : String) : Mutation → Prop
  | deleteEntityType other => other = entity
  | deleteEventType other event => other = entity ∧ event = name
  | _ => False

/-- A revision stays as it is until it is removed. -/
theorem schema?_apply {m : Mutation} (hnamed : r.Named) (hadmits : m.Admits r)
    (h : r.schema? entity name number = some schema) (hkept : ¬ m.Removes entity name) :
    (m.change.apply r).1.schema? entity name number = some schema := by
  have hnext : Registry.schema? { r with vsn := r.vsn + 1 } entity name number = some schema := h
  have hnamed' : Registry.Named { r with vsn := r.vsn + 1 } := hnamed
  obtain ⟨old, hold, hget⟩ := Registry.schema?_eq_some.mp h
  cases m with
  | createEntityType other =>
    apply Registry.schema?_setEntity hnext
    intro hsame
    have hnone : r.entity? other = none := hadmits
    rw [show other = entity from hsame, hold] at hnone
    cases hnone
  | deleteEntityType other =>
    have hne : other ≠ entity := hkept
    rw [Registry.schema?_eq_some]
    refine ⟨old, ?_, hget⟩
    simp only [change, Change.apply, Registry.entity?, Std.ExtTreeMap.getElem?_erase]
    rw [if_neg (by simpa [Std.LawfulEqCmp.compare_eq_iff_eq] using hne)]
    exact hold
  | createEventType other event _ =>
    apply Registry.schema?_addRevision hnamed' hnext
    intro e he
    obtain ⟨found, hfound, habsent⟩ := hadmits
    rw [show r.entity? other = some e from he, Option.some.injEq] at hfound
    cases hzero : e.get? event 0 with
    | none => rfl
    | some _ =>
      rw [← hfound, EntityType.hasEvent_of_get? hzero] at habsent
      cases habsent
  | updateEventType other event _ =>
    apply Registry.schema?_addRevision hnamed' hnext
    intro e _
    cases hlast : e.get? event (e.nextNumber event) with
    | none => rfl
    | some _ => exact absurd (EntityType.lt_nextNumber hlast) (lt_irrefl _)
  | deleteEventType other event =>
    simp only [change, Change.apply]
    split
    · exact hnext
    · rename_i e he
      apply Registry.schema?_setEntity hnext
      intro hsame
      have hother : other = entity := (hnamed other e he).symm.trans hsame
      have hne : name ≠ event := fun heq => hkept ⟨hother, heq.symm⟩
      rw [hother, show Registry.entity? { r with vsn := r.vsn + 1 } entity = some old from hold,
        Option.some.injEq] at he
      rw [← he]
      exact (EntityType.get?_eraseEvent_of_ne hne).trans hget

end Mutation

end Chronicle
