import Mathlib
import Chronicle.Proofs.MutationEffects

/-!
# Folding changes in any order

A log can hold changes that no check has let through: to entity types that are not there, to event
types that are there already or not at all, with texts that are no schema. Whatever they are, a fold
that goes on after each of them keeps the registry's numbers in order. What carries this is that a
revision never gets a number beyond the next one, and that a deletion takes all revisions of an event
type at once.
-/
namespace Chronicle

/-! ## Revisions in order -/

namespace EntityType

variable {σ : Type} {e : EntityType σ} {event : String} {count number k : Nat} {schema : σ}

/-- The revisions of an event type are numbered from 0 on without gaps, so many in all. -/
def Numbered (e : EntityType σ) (event : String) (count : Nat) : Prop :=
  ∀ number, (e.get? event number).isSome = true ↔ number < count

/-- The revisions of every event type are numbered from 0 on without gaps. -/
def Gapless (e : EntityType σ) : Prop := ∀ event, ∃ count, e.Numbered event count

theorem Numbered.get?_eq_none (h : e.Numbered event 0) (number : Nat) :
    e.get? event number = none := by
  have hnot := (h number).not.mpr (Nat.not_lt_zero number)
  simpa using hnot

theorem Numbered.hasEvent (h : e.Numbered event (k + 1)) : e.hasEvent event = true :=
  hasEvent_iff.mpr ⟨0, (h 0).mpr k.succ_pos⟩

/-- The newest revision has the greatest number. -/
theorem Numbered.latest? (h : e.Numbered event (k + 1)) :
    ∃ schema, e.get? event k = some schema ∧ e.latest? event = some (⟨event, k⟩, schema) := by
  obtain ⟨⟨⟨name, number⟩, schema⟩, hlatest⟩ := Option.isSome_iff_exists.mp h.hasEvent
  obtain ⟨hname, hget⟩ := get?_of_latest? hlatest
  have hname : name = event := hname
  have hget : e.get? event number = some schema := hget
  have hle : number < k + 1 := (h number).mp (by simp [hget])
  have hge : k < e.nextNumber event := by
    obtain ⟨last, hlast⟩ := Option.isSome_iff_exists.mp ((h k).mpr k.lt_succ_self)
    exact lt_nextNumber hlast
  have hnext : e.nextNumber event = number + 1 := by rw [nextNumber, hlatest]
  have hk : number = k := by omega
  subst hk hname
  exact ⟨schema, hget, hlatest⟩

theorem Numbered.nextNumber (h : e.Numbered event count) : e.nextNumber event = count := by
  cases count with
  | zero =>
    have hnone := hasEvent_eq_false_iff.mpr h.get?_eq_none
    rw [EntityType.nextNumber, Option.not_isSome_iff_eq_none.mp (Bool.eq_false_iff.mp hnone)]
  | succ k =>
    obtain ⟨schema, -, hlatest⟩ := h.latest?
    rw [EntityType.nextNumber, hlatest]

theorem gapless_new (name : String) : (EntityType.new name : EntityType σ).Gapless := by
  intro event
  refine ⟨0, fun number => ?_⟩
  simp [get?, new]

/-- A revision takes the place of another one, or it goes behind them all. -/
theorem Numbered.insert (h : e.Numbered event count) (hnumber : number ≤ count) :
    (e.insert ⟨event, number⟩ schema).Numbered event (max count (number + 1)) := by
  intro n
  rw [get?_insert]
  have hn := h n
  by_cases heq : number = n
  · simp [heq]
  · -- the number is at most the count, so no other number lies between the two counts
    have hne : (⟨event, number⟩ : Revision) ≠ ⟨event, n⟩ := by simp [heq]
    rw [if_neg hne, hn]
    omega

theorem Gapless.insert (h : e.Gapless) (hnumber : number ≤ e.nextNumber event) :
    (e.insert ⟨event, number⟩ schema).Gapless := by
  intro other
  by_cases heq : other = event
  · subst heq
    obtain ⟨count, hcount⟩ := h other
    rw [hcount.nextNumber] at hnumber
    exact ⟨_, hcount.insert hnumber⟩
  · obtain ⟨count, hcount⟩ := h other
    refine ⟨count, fun n => ?_⟩
    have hne : (⟨event, number⟩ : Revision) ≠ ⟨other, n⟩ := by simp [Ne.symm heq]
    rw [get?_insert, if_neg hne]
    exact hcount n

theorem Gapless.eraseEvent (h : e.Gapless) (event : String) : (e.eraseEvent event).Gapless := by
  intro other
  by_cases heq : other = event
  · subst heq
    refine ⟨0, fun n => ?_⟩
    simp [get?_eraseEvent_self]
  · obtain ⟨count, hcount⟩ := h other
    refine ⟨count, fun n => ?_⟩
    rw [get?_eraseEvent_of_ne heq]
    exact hcount n

/-- The entity type has no revision of an event type. -/
structure Lacks (e : EntityType σ) (event : String) : Prop where
  stored : ∀ number, e.get? event number = none
  latest : e.latest? event = none
  absent : e.hasEvent event = false
  next : e.nextNumber event = 0

/-- The entity type has the revisions 0 to `k` of an event type and no others. -/
structure HasUpTo (e : EntityType σ) (event : String) (k : Nat) : Prop where
  stored : ∀ number, (e.get? event number).isSome = true ↔ number ≤ k
  latest : ∃ schema, e.get? event k = some schema ∧ e.latest? event = some (⟨event, k⟩, schema)
  there : e.hasEvent event = true
  next : e.nextNumber event = k + 1

theorem Gapless.lacks_or_hasUpTo (h : e.Gapless) (event : String) :
    e.Lacks event ∨ ∃ k, e.HasUpTo event k := by
  obtain ⟨count, hcount⟩ := h event
  cases count with
  | zero =>
    have hnone := hasEvent_eq_false_iff.mpr hcount.get?_eq_none
    have hlatest := Option.not_isSome_iff_eq_none.mp (Bool.eq_false_iff.mp hnone)
    exact .inl ⟨hcount.get?_eq_none, hlatest, hnone, hcount.nextNumber⟩
  | succ k =>
    refine .inr ⟨k, fun number => ?_, hcount.latest?, hcount.hasEvent, hcount.nextNumber⟩
    rw [hcount number, Nat.lt_succ_iff]

end EntityType

/-! ## One change -/

namespace Change

variable {r : Registry} {c : Change} {name event : String} {outcome : Outcome Unit}
  {old : Option (EntityType Payload.Schema)} {e : EntityType Payload.Schema} {bytes : Bytes}

theorem Turns.gapless (h : Turns c outcome old (some e))
    (hold : ∀ before, old = some before → before.Gapless) : e.Gapless := by
  cases h with
  | created => exact EntityType.gapless_new _
  | revised hrevision hparse => exact (hold _ rfl).insert (number_le_of_revision? hrevision)
  | unreadable hrevision hparse => exact hold _ rfl
  | dropped => exact (hold _ rfl).eraseEvent _

/-- No change leaves a gap between revisions. -/
theorem gapless_apply (hnamed : r.Named)
    (hold : ∀ before, r.entity? name = some before → before.Gapless)
    (h : (c.apply r).1.entity? name = some e) : e.Gapless := by
  obtain ⟨new, hchanged, hturns⟩ := turns_apply hnamed c
  by_cases heq : name = c.entity
  · rw [heq, hchanged.changed] at h
    rw [h] at hturns
    rw [heq] at hold
    exact hturns.gapless hold
  · rw [hchanged.others name heq] at h
    exact hold e h

/-- There is no revision with a text that is no schema. -/
theorem eventCreated_of_unreadable {entity : String} (hentity : r.entity? entity = some e)
    (hparse : Payload.Schema.parse? bytes = none) :
    ((Change.eventCreated entity event bytes).apply r).2 = .error .schemaText := by
  have hsame : Registry.entity? { r with vsn := r.vsn + 1 } entity = r.entity? entity := rfl
  simp [apply, addRevision, hsame, hentity, hparse]

end Change

/-! ## The fold -/

namespace Registry

variable {r : Registry} {c : Change} {cs : List Change} {name : String}
  {e : EntityType Payload.Schema}

/-- Applies every change, going on after those that fail. -/
def folded (r : Registry) (cs : List Change) : Registry := cs.foldl (fun r c => (c.apply r).1) r

/-- The changes of a fold with what came of each. -/
def outcomes : Registry → List Change → List (Change × Outcome Unit)
  | _, [] => []
  | r, c :: cs => (c, (c.apply r).2) :: outcomes (c.apply r).1 cs

/-- What has been applied to the empty registry since an entity type was last created. -/
def sinceCreated (name : String) (cs : List Change) : List (Change × Outcome Unit) :=
  (outcomes empty cs).rtakeWhile fun step => step.1 ≠ .entityCreated name

theorem folded_concat (r : Registry) (cs : List Change) (c : Change) :
    folded r (cs ++ [c]) = (c.apply (folded r cs)).1 := by
  simp [folded]

/-- The outcome of a change depends on all that came before it. -/
theorem outcomes_concat (r : Registry) (cs : List Change) (c : Change) :
    outcomes r (cs ++ [c]) = outcomes r cs ++ [(c, (c.apply (folded r cs)).2)] := by
  induction cs generalizing r with
  | nil => rfl
  | cons d cs ih => simp [outcomes, ih, folded]

theorem sinceCreated_concat (name : String) (cs : List Change) (c : Change) :
    sinceCreated name (cs ++ [c]) = if c = .entityCreated name then []
      else sinceCreated name cs ++ [(c, (c.apply (folded empty cs)).2)] := by
  rw [sinceCreated, outcomes_concat, List.rtakeWhile_concat]
  by_cases heq : c = .entityCreated name
  · simp [heq]
  · simp [heq, sinceCreated]

theorem vsn_folded (r : Registry) (cs : List Change) :
    (folded r cs).vsn = r.vsn + cs.length := by
  induction cs using List.reverseRecOn with
  | nil => rfl
  | append_singleton cs c ih =>
    rw [folded_concat, vsn_apply, ih, List.length_append, List.length_singleton]
    omega

theorem named_folded (cs : List Change) : (folded empty cs).Named := by
  induction cs using List.reverseRecOn with
  | nil => exact named_empty
  | append_singleton cs c ih =>
    rw [folded_concat]
    exact ih.apply c

/-- An entity type is there exactly if it was created and not deleted since. -/
theorem entity?_folded_iff (name : String) (cs : List Change) :
    ((folded empty cs).entity? name).isSome = true ↔
      .entityCreated name ∈ cs ∧ ∀ step ∈ sinceCreated name cs, step.1 ≠ .entityDeleted name := by
  induction cs using List.reverseRecOn with
  | nil => simp [folded, entity?, empty]
  | append_singleton cs c ih =>
    rw [folded_concat, Change.isSome_apply (named_folded cs), sinceCreated_concat]
    by_cases hcreated : c = .entityCreated name
    · simp [hcreated]
    · by_cases hdeleted : c = .entityDeleted name
      · simp [hdeleted]
      · simp only [if_neg hcreated, if_neg hdeleted, ih, List.mem_append, List.mem_singleton,
          Ne.symm hcreated, or_false]
        constructor
        · rintro ⟨hmem, hkept⟩
          refine ⟨hmem, ?_⟩
          rintro step (hstep | rfl)
          · exact hkept step hstep
          · exact hdeleted
        · rintro ⟨hmem, hkept⟩
          exact ⟨hmem, fun step hstep => hkept step (.inl hstep)⟩

theorem gapless_folded (h : (folded empty cs).entity? name = some e) : e.Gapless := by
  induction cs using List.reverseRecOn generalizing e with
  | nil => simp [folded, entity?, empty] at h
  | append_singleton cs c ih =>
    rw [folded_concat] at h
    exact Change.gapless_apply (named_folded cs) (fun before hbefore => ih hbefore) h

/-- The version of an entity type is the number of changes in it since it was created. -/
theorem vsn_entity?_folded (h : (folded empty cs).entity? name = some e) :
    e.vsn = (sinceCreated name cs).countP (Change.countsFor name) := by
  induction cs using List.reverseRecOn generalizing e with
  | nil => simp [folded, entity?, empty] at h
  | append_singleton cs c ih =>
    rw [folded_concat] at h
    rw [sinceCreated_concat]
    rcases Change.vsn_entity_apply (named_folded cs) h with
      ⟨hcreated, hvsn⟩ | ⟨hcreated, before, hbefore, hvsn⟩
    · simp [hcreated, hvsn]
    · rw [if_neg hcreated, hvsn, ih hbefore, List.countP_append, List.countP_singleton]

/-! ## The result -/

/-- Any changes, folded from the empty registry on. Its version is their number. An entity type is
there exactly if it was created and not deleted since; it stands under its own name, its version is the
number of changes of its event types that have been applied since it was created, and each event type
has the revisions from 0 to the newest one or none. A change that fails changes the version alone. -/
theorem fold_keeps_order (cs : List Change) :
    (folded empty cs).vsn = cs.length ∧
    (∀ name, (∃ e, (folded empty cs).entity? name = some e) ↔
      .entityCreated name ∈ cs ∧ ∀ step ∈ sinceCreated name cs, step.1 ≠ .entityDeleted name) ∧
    (∀ name e, (folded empty cs).entity? name = some e →
      e.name = name ∧ e.vsn = (sinceCreated name cs).countP (Change.countsFor name) ∧
      ∀ event, e.Lacks event ∨ ∃ k, e.HasUpTo event k) ∧
    ∀ (c : Change) (fault : Fault), (c.apply (folded empty cs)).2 = .error fault →
      (c.apply (folded empty cs)).1 = { folded empty cs with vsn := cs.length + 1 } := by
  have hvsn : (folded empty cs).vsn = cs.length := (vsn_folded empty cs).trans (Nat.zero_add _)
  refine ⟨hvsn, fun name => ?_, fun name e he => ⟨named_folded cs name e he,
    vsn_entity?_folded he, (gapless_folded he).lacks_or_hasUpTo⟩, fun c fault hfault => ?_⟩
  · rw [← Option.isSome_iff_exists, entity?_folded_iff]
  · rw [Change.apply_of_error hfault, hvsn]

/-- Changes that no check has let through. -/
def unchecked : List Change :=
  let text := Payload.Schema.write .string
  [.eventCreated "a" "b" text, .entityCreated "a", .eventUpdated "a" "bb" text,
   .entityCreated "a", .eventUpdated "a" "b" text, .eventUpdated "a" "b" text,
   .eventCreated "a" "b" text, .eventCreated "a" "b" [], .eventUpdated "a" "bb" text,
   .eventDeleted "a" "c"]

/-- The entity type was created twice. What came before does not count, nor does the text that is no
schema; the deletion that found nothing does. -/
theorem unchecked_keeps_order : ∃ e, (folded empty unchecked).vsn = 10 ∧
    (folded empty unchecked).entity? "a" = some e ∧ e.name = "a" ∧ e.vsn = 5 ∧
    e.HasUpTo "b" 1 ∧ e.HasUpTo "bb" 0 ∧ e.Lacks "c" ∧
    ∃ fault, ((Change.eventCreated "a" "b" []).apply (folded empty unchecked)).2 = .error fault ∧
      ((Change.eventCreated "a" "b" []).apply (folded empty unchecked)).1 =
        { folded empty unchecked with vsn := 11 } := by
  obtain ⟨hvsn, -, hentities, hfails⟩ := fold_keeps_order unchecked
  obtain ⟨e, he, hnext⟩ := (Option.any_eq_true _ _).mp
    (show ((folded empty unchecked).entity? "a").any (fun e =>
      e.nextNumber "b" = 2 && e.nextNumber "bb" = 1 && e.nextNumber "c" = 0) = true by
        decide +kernel)
  simp only [Bool.and_eq_true, decide_eq_true_eq] at hnext
  obtain ⟨⟨hb, hbb⟩, hc⟩ := hnext
  obtain ⟨hname, hcount, hevents⟩ := hentities "a" e he
  have hfive : (sinceCreated "a" unchecked).countP (Change.countsFor "a") = 5 := by decide +kernel
  have hupTo : ∀ event k, e.nextNumber event = k + 1 → e.HasUpTo event k := by
    intro event k hk
    rcases hevents event with hlacks | ⟨last, hlast⟩
    · rw [hlacks.next] at hk
      omega
    · have heq : last = k := by rw [hlast.next] at hk; omega
      exact heq ▸ hlast
  have hlacks : e.Lacks "c" := by
    rcases hevents "c" with hlacks | ⟨last, hlast⟩
    · exact hlacks
    · rw [hlast.next] at hc
      omega
  have hfault : ((Change.eventCreated "a" "b" []).apply (folded empty unchecked)).2 =
      .error .schemaText :=
    Change.eventCreated_of_unreadable he (Option.isNone_iff_eq_none.mp (by decide +kernel))
  exact ⟨e, hvsn, he, hname, hcount.trans hfive, hupTo "b" 1 hb, hupTo "bb" 0 hbb, hlacks,
    _, hfault, hfails _ _ hfault⟩

end Registry
end Chronicle
