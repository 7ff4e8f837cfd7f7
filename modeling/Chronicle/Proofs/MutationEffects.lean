import Mathlib
import Chronicle.Proofs.ChangeSteps
import Chronicle.Proofs.Refusals
import Chronicle.Proofs.RegistryVersion

/-!
# What registry mutations do

A mutation refuses exactly when the registry as it stands does not admit it. Otherwise it appends its
change, and what is read afterwards is the registry before with one entity type or one event type
changed and everything else as it was. The check is made on the registry that is read before, while
the change is applied by every reading that comes later.
-/
namespace Chronicle

/-! ## Entity types -/

namespace EntityType

variable {σ : Type} {e e' : EntityType σ} {name : String} {number : Nat}

/-- The newest revision is there, and it has the greatest number. -/
theorem get?_of_latest? {revision : Revision} {schema : σ}
    (h : e.latest? name = some (revision, schema)) :
    revision.name = name ∧ e.get? name revision.number = some schema := by
  have hmem := List.mem_of_getLast? h
  obtain ⟨hmem, hname⟩ := List.mem_filter.mp hmem
  have hname : revision.name = name := by simpa using hname
  refine ⟨hname, ?_⟩
  have hentry := Std.ExtTreeMap.mem_toList_iff_getElem?_eq_some.mp hmem
  rwa [← hname]

theorem hasEvent_iff : e.hasEvent name = true ↔ ∃ number, (e.get? name number).isSome = true := by
  constructor
  · intro h
    obtain ⟨⟨revision, schema⟩, hlatest⟩ := Option.isSome_iff_exists.mp h
    exact ⟨revision.number, by rw [(get?_of_latest? hlatest).2]; rfl⟩
  · rintro ⟨number, h⟩
    obtain ⟨schema, hget⟩ := Option.isSome_iff_exists.mp h
    exact hasEvent_of_get? hget

theorem hasEvent_eq_false_iff : e.hasEvent name = false ↔ ∀ number, e.get? name number = none := by
  rw [← Bool.not_eq_true, hasEvent_iff]
  simp

theorem nextNumber_of_isGreatest (h : e.hasEvent name = true) :
    ∃ k, IsGreatest {number | (e.get? name number).isSome = true} k ∧ e.nextNumber name = k + 1 := by
  obtain ⟨⟨revision, schema⟩, hlatest⟩ := Option.isSome_iff_exists.mp h
  have hnext : e.nextNumber name = revision.number + 1 := by rw [nextNumber, hlatest]
  refine ⟨revision.number, ⟨?_, fun number hnumber => ?_⟩, hnext⟩
  · show (e.get? name revision.number).isSome = true
    rw [(get?_of_latest? hlatest).2]
    rfl
  · obtain ⟨found, hget⟩ := Option.isSome_iff_exists.mp hnumber
    have hlt := lt_nextNumber hget
    omega

theorem get?_eraseEvent_self : (e.eraseEvent name).get? name number = none := by
  simp [get?, eraseEvent]

/-- The one is the other with one more change, in the revisions of one event type. -/
structure ChangedIn (e e' : EntityType σ) (event : String) (revisions : Nat → Option σ) : Prop where
  name : e'.name = e.name
  vsn : e'.vsn = e.vsn + 1
  changed : ∀ number, e'.get? event number = revisions number
  others : ∀ other number, other ≠ event → e'.get? other number = e.get? other number

theorem changedIn_insert (e : EntityType σ) (event : String) (number : Nat) (schema : σ) :
    e.ChangedIn (e.insert ⟨event, number⟩ schema).changed event
      fun n => if n = number then some schema else e.get? event n := by
  have hget : ∀ other n, (e.insert ⟨event, number⟩ schema).changed.get? other n =
      if (⟨event, number⟩ : Revision) = ⟨other, n⟩ then some schema else e.get? other n :=
    fun _ _ => get?_insert _
  refine ⟨rfl, rfl, fun n => ?_, fun other n hne => ?_⟩
  · rw [hget]
    simp [eq_comm]
  · rw [hget, if_neg fun heq => hne (Revision.mk.inj heq).1.symm]

theorem changedIn_eraseEvent (e : EntityType σ) (event : String) :
    e.ChangedIn (e.eraseEvent event).changed event fun _ => none :=
  ⟨rfl, rfl, fun _ => get?_eraseEvent_self, fun _ _ hne => get?_eraseEvent_of_ne hne⟩

end EntityType

/-! ## Registries -/

namespace Registry

variable {r r' : Registry} {name : String} {keys : KeySpace} {s t u : Session}

theorem named_foldEvents {events : List Event} {slot : Nat} {last last' : Option Nat}
    (hnamed : r.Named)
    (h : Item.foldEvents visit events slot (r, last) = .ok (r', last')) : r'.Named := by
  induction events generalizing r slot last with
  | nil =>
    cases h
    exact hnamed
  | cons event events ih =>
    rw [Item.foldEvents] at h
    rcases hchange : Change.ofEvent event with fault | ⟨_ | change⟩
    · simp [visit, Item.view.visit, step, hchange, bind, Except.bind] at h
    · simp only [visit, Item.view.visit, step, hchange, bind, Except.bind, pure, Except.pure] at h
      exact ih hnamed h
    · rw [visit_eq hchange] at h
      obtain ⟨_, hvisit, h⟩ := Outcome.bind_eq_ok.mp h
      obtain ⟨_, -, rfl⟩ := Outcome.map_eq_ok.mp hvisit
      exact ih (hnamed.apply change) h

/-- Whatever a store holds, a registry that is read has every entity type under its name. -/
theorem named_of_current (h : current keys = .ok r) : r.Named := by
  cases hthere : Item.isThere keys registryItem with
  | error fault =>
    rw [current, fold, if_neg Bool.false_ne_true, hthere] at h
    cases h
  | ok there =>
    cases there with
    | false =>
      rw [current_of_not_there hthere] at h
      cases h
      exact named_empty
    | true =>
      obtain ⟨events, hversion, hstored⟩ := stored_of_current hthere h
      rw [current_eq_foldEvents hversion hstored] at h
      obtain ⟨found, hfold, rfl⟩ := Outcome.map_eq_ok.mp h
      exact named_foldEvents named_empty hfold

end Registry

/-! ## Mutations -/

namespace Mutation

variable {m : Mutation} {r : Registry} {s t u : Session} {fault : Fault}

/-- What a mutation does not find as it needs it in the registry. -/
def Refuses (r : Registry) : Mutation → Fault → Prop
  | createEntityType name, fault =>
    fault = .entityTypeExists name ∧ ∃ e, r.entity? name = some e
  | deleteEntityType name, fault => fault = .entityTypeNotFound name ∧ r.entity? name = none
  | createEventType entity name _, fault =>
    fault = .entityTypeNotFound entity ∧ r.entity? entity = none ∨
      fault = .eventTypeExists entity name ∧
        ∃ number schema, r.schema? entity name number = some schema
  | updateEventType entity name _, fault | deleteEventType entity name, fault =>
    fault = .entityTypeNotFound entity ∧ r.entity? entity = none ∨
      fault = .eventTypeNotFound entity name ∧ (∃ e, r.entity? entity = some e) ∧
        ∀ number, r.schema? entity name number = none

/-- The data schema that a mutation writes is read back as it is. -/
def ReadsBack : Mutation → Prop
  | createEventType _ _ schema | updateEventType _ _ schema =>
    Payload.Schema.parse? schema.write = some schema
  | _ => True

/-- What a mutation that answers `n` makes of a registry. A new entity type has no revisions and its
own version starts at 0. An update answers the number of its revision, the next one after the
greatest. -/
def Effect (r r' : Registry) (n : Nat) : Mutation → Prop
  | createEntityType name =>
    r.ChangedIn r' name (some { name := name, vsn := 0, revisions := ∅ })
  | deleteEntityType name => r.ChangedIn r' name none
  | createEventType entity name schema => ∃ e e', r.entity? entity = some e ∧
      r.ChangedIn r' entity (some e') ∧
      e.ChangedIn e' name fun number => if number = 0 then some schema else none
  | updateEventType entity name schema => ∃ e e' k, r.entity? entity = some e ∧
      IsGreatest {number | (e.get? name number).isSome = true} k ∧ n = k + 1 ∧
      r.ChangedIn r' entity (some e') ∧
      e.ChangedIn e' name fun number => if number = k + 1 then some schema else e.get? name number
  | deleteEventType entity name => ∃ e e', r.entity? entity = some e ∧
      r.ChangedIn r' entity (some e') ∧ e.ChangedIn e' name fun _ => none

/-- An update answers the number of a revision, any other mutation the new version. -/
def AnswersRevision : Mutation → Prop
  | updateEventType _ _ _ => True
  | _ => False

theorem effect_change {slot n : Nat} (hnamed : r.Named) (hadmits : m.Admits r)
    (hanswers : m.Answers r slot n) (hreads : m.ReadsBack) :
    m.Effect r (m.change.apply r).1 n := by
  have hentity : ∀ {name : String} {e : EntityType Payload.Schema}, r.entity? name = some e →
      Registry.entity? { r with vsn := r.vsn + 1 } name = some e := id
  cases m with
  | createEntityType name => exact Registry.changedIn_setEntity rfl
  | deleteEntityType name => exact Registry.changedIn_erase r name
  | createEventType entity name schema =>
    obtain ⟨e, he, habsent⟩ := hadmits
    have hparse : Payload.Schema.parse? schema.write = some schema := hreads
    refine ⟨e, (e.insert ⟨name, 0⟩ schema).changed, he, ?_, ?_⟩
    · simp only [change, Change.apply, Change.addRevision, hentity he, hparse]
      exact Registry.changedIn_setEntity (hnamed entity e he)
    · have hchanged := e.changedIn_insert name 0 schema
      simpa only [EntityType.hasEvent_eq_false_iff.mp habsent] using hchanged
  | updateEventType entity name schema =>
    obtain ⟨e, he, hevent⟩ := hadmits
    have hparse : Payload.Schema.parse? schema.write = some schema := hreads
    obtain ⟨k, hk, hnext⟩ := EntityType.nextNumber_of_isGreatest hevent
    have hn : n = k + 1 := by
      obtain ⟨found, hfound, hn⟩ := hanswers
      rw [he, Option.some.injEq] at hfound
      rw [hn, ← hfound, hnext]
    refine ⟨e, (e.insert ⟨name, k + 1⟩ schema).changed, k, he, hk, hn, ?_,
      e.changedIn_insert _ _ _⟩
    simp only [change, Change.apply, Change.addRevision, hentity he, hparse, hnext]
    exact Registry.changedIn_setEntity (hnamed entity e he)
  | deleteEventType entity name =>
    obtain ⟨e, he, -⟩ := hadmits
    refine ⟨e, (e.eraseEvent name).changed, he, ?_, e.changedIn_eraseEvent name⟩
    simp only [change, Change.apply, hentity he]
    exact Registry.changedIn_setEntity (hnamed entity e he)

theorem legible_of_readsBack (h : m.ReadsBack) : m.legible = true := by
  cases m with
  | createEventType entity name schema | updateEventType entity name schema =>
    rw [legible, show Payload.Schema.parse? schema.write = some schema from h]
    rfl
  | _ => rfl

/-! ### Checks -/

/-- A mutation is refused or admitted. -/
theorem refuses_or_admits (m : Mutation) (r : Registry) :
    (∃ fault, m.Refuses r fault) ∨ m.Admits r := by
  have hschema : ∀ {entity name : String} {e : EntityType Payload.Schema},
      r.entity? entity = some e → ∀ number, r.schema? entity name number = e.get? name number := by
    intro entity name e he number
    rw [Registry.schema?, he]
    rfl
  cases m with
  | createEntityType name =>
    cases he : r.entity? name with
    | none => exact .inr he
    | some e => exact .inl ⟨_, rfl, e, he⟩
  | deleteEntityType name =>
    cases he : r.entity? name with
    | none => exact .inl ⟨_, rfl, he⟩
    | some e => exact .inr ⟨e, he⟩
  | createEventType entity name schema =>
    cases he : r.entity? entity with
    | none => exact .inl ⟨_, .inl ⟨rfl, he⟩⟩
    | some e =>
      cases hevent : e.hasEvent name with
      | false => exact .inr ⟨e, he, hevent⟩
      | true =>
        obtain ⟨number, hnumber⟩ := EntityType.hasEvent_iff.mp hevent
        obtain ⟨found, hfound⟩ := Option.isSome_iff_exists.mp hnumber
        exact .inl ⟨_, .inr ⟨rfl, number, found, (hschema he number).trans hfound⟩⟩
  | updateEventType entity name schema | deleteEventType entity name =>
    cases he : r.entity? entity with
    | none => exact .inl ⟨_, .inl ⟨rfl, he⟩⟩
    | some e =>
      cases hevent : e.hasEvent name with
      | true => exact .inr ⟨e, he, hevent⟩
      | false =>
        refine .inl ⟨_, .inr ⟨rfl, ⟨e, he⟩, fun number => ?_⟩⟩
        exact (hschema he number).trans (EntityType.hasEvent_eq_false_iff.mp hevent number)

/-- A refusal comes after the registry's item is in place and before anything else is written. -/
theorem run_of_refuses (hprepare : Registry.prepare s = .ok r u) (h : m.Refuses r fault) :
    m.run s = .error fault u := by
  cases m with
  | createEntityType name =>
    obtain ⟨rfl, e, he⟩ := h
    refine (Txn.bind_of_ok hprepare).trans ?_
    rw [he]
    rfl
  | deleteEntityType name =>
    obtain ⟨rfl, he⟩ := h
    refine (Txn.bind_of_ok hprepare).trans ?_
    rw [Registry.requireEntity, he]
    rfl
  | createEventType entity name schema =>
    refine (Txn.bind_of_ok hprepare).trans ?_
    rcases h with ⟨rfl, he⟩ | ⟨rfl, number, found, hfound⟩
    · rw [Registry.requireEntity, he]
      rfl
    · obtain ⟨e, he, hget⟩ := Registry.schema?_eq_some.mp hfound
      rw [Registry.requireEntity, he, Txn.bind_of_ok (Txn.lift_eq_ok.mpr ⟨rfl, rfl⟩),
        EntityType.hasEvent_of_get? hget]
      rfl
  | updateEventType entity name schema | deleteEventType entity name =>
    refine (Txn.bind_of_ok hprepare).trans ?_
    rcases h with ⟨rfl, he⟩ | ⟨rfl, ⟨e, he⟩, hnone⟩
    · rw [Registry.requireEvent, Registry.requireEntity, he]
      rfl
    · have habsent : e.hasEvent name = false := EntityType.hasEvent_eq_false_iff.mpr fun number => by
        have hnumber := hnone number
        rwa [Registry.schema?, he] at hnumber
      have hrequire : Registry.requireEvent r entity name =
          .error (.eventTypeNotFound entity name) := by
        simp [Registry.requireEvent, Registry.requireEntity, he, habsent, bind, Except.bind]
      rw [hrequire]
      rfl

/-- A mutation that is admitted fails with its append. -/
theorem run_of_append_error (hprepare : Registry.prepare s = .ok r u) (hadmits : m.Admits r)
    (happend : Registry.append m.change u = .error fault t) : m.run s = .error fault t := by
  have hlift : ∀ {α β : Type} {outcome : Outcome α} {a : α} {f : α → Txn β},
      outcome = .ok a → (Txn.lift outcome >>= f) u = f a u :=
    fun ha => Txn.bind_of_ok (Txn.lift_eq_ok.mpr ⟨ha, rfl⟩)
  cases m with
  | createEntityType name =>
    refine (Txn.bind_of_ok hprepare).trans ?_
    rw [show r.entity? name = none from hadmits]
    exact happend
  | deleteEntityType name =>
    obtain ⟨e, he⟩ := hadmits
    refine (Txn.bind_of_ok hprepare).trans ?_
    rw [hlift (Registry.requireEntity_eq_ok.mpr he)]
    exact happend
  | createEventType entity name schema =>
    obtain ⟨e, he, habsent⟩ := hadmits
    refine (Txn.bind_of_ok hprepare).trans ?_
    rw [hlift (Registry.requireEntity_eq_ok.mpr he), habsent]
    exact happend
  | updateEventType entity name schema =>
    obtain ⟨e, he⟩ := hadmits
    refine (Txn.bind_of_ok hprepare).trans ?_
    rw [hlift (Registry.requireEvent_eq_ok.mpr he)]
    exact Txn.bind_eq_error.mpr (.inl happend)
  | deleteEventType entity name =>
    obtain ⟨e, he⟩ := hadmits
    refine (Txn.bind_of_ok hprepare).trans ?_
    rw [hlift (Registry.requireEvent_eq_ok.mpr he)]
    exact happend

/-- The change can be written into the log, and there is a slot for it. -/
def Logs (m : Mutation) (u : Session) : Prop :=
  ∃ event payload slot id w, m.change.toEvent = .ok event ∧
    (Envelope.wrap registryItem event).encode = .ok payload ∧
    Item.version u.keys registryItem = .ok slot ∧ slot + 1 < Bytes.capacity 8 ∧
    Log.put 0 (.new event.kind payload) u = .ok id w

theorem Logs.append (h : m.Logs u) : ∃ slot t, Registry.append m.change u = .ok slot t := by
  obtain ⟨event, payload, slot, id, w, hevent, hpayload, hversion, hslot, hput⟩ := h
  have hlength : registryItem.name.length + 12 ≤ Txn.keyLimit := by decide
  have hpartition : registryItem.partition = .ok 0 := rfl
  have happend : Item.append registryItem slot event u = .ok () _ :=
    Txn.bind_eq_ok.mpr ⟨0, u, Txn.lift_eq_ok.mpr ⟨hpartition, rfl⟩,
      Txn.bind_eq_ok.mpr ⟨payload, u, Txn.lift_eq_ok.mpr ⟨hpayload, rfl⟩,
        Txn.bind_eq_ok.mpr ⟨id, w, hput, Item.recordSlot_of_length hlength hslot id event.kind⟩⟩⟩
  exact ⟨slot, _, Registry.append_eq_ok.mpr
    ⟨event, hevent, Item.putNext_eq_ok.mpr ⟨hversion, happend⟩⟩⟩

/-- A mutation that is admitted succeeds with its append. -/
theorem run_of_append {slot : Nat} (hprepare : Registry.prepare s = .ok r u) (hadmits : m.Admits r)
    (happend : Registry.append m.change u = .ok slot t) : ∃ n, m.run s = .ok n t := by
  have hanswer : ∃ n, m.Answers r slot n := by
    cases m with
    | updateEventType entity name schema =>
      obtain ⟨e, he, -⟩ := hadmits
      exact ⟨_, e, he, rfl⟩
    | _ => exact ⟨slot, rfl⟩
  obtain ⟨n, hn⟩ := hanswer
  exact ⟨n, run_eq_ok.mpr ⟨r, u, hprepare, hadmits, slot, happend, hn⟩⟩

theorem refused_iff (hprepare : Registry.prepare s = .ok r u) (hfault : fault.RefusesMutation) :
    (∃ t, m.run s = .error fault t) ↔ m.Refuses r fault := by
  refine ⟨fun ⟨t, hrun⟩ => ?_, fun h => ⟨u, run_of_refuses hprepare h⟩⟩
  rcases m.refuses_or_admits r with ⟨other, h⟩ | hadmits
  · have hother := run_of_refuses hprepare h
    rw [hrun] at hother
    cases hother
    exact h
  · -- an append does not fail with a refusal
    exfalso
    cases happend : Registry.append m.change u with
    | ok slot w =>
      obtain ⟨n, hok⟩ := run_of_append hprepare hadmits happend
      rw [hrun] at hok
      cases hok
    | error other w =>
      have hother := run_of_append_error hprepare hadmits happend
      rw [hrun] at hother
      cases hother
      exact Registry.not_refusal_of_append happend hfault

/-! ### Answers -/

/-- In a store that a run has led to, the slot of a change is the version that it makes. -/
theorem answer_of_reached {clock : Clock} {trace : List Step} {n : Nat}
    (hreached : Run.Reached clock trace s)
    (hclear : ∀ step ∈ trace, ∀ item, step.op.item? = some item → ¬ item.Continues registryItem)
    (hcurrent : Registry.current s.keys = .ok r) (hrun : m.run s = .ok n t)
    (hanswer : ¬ m.AnswersRevision) : n = r.vsn + 1 := by
  obtain ⟨found, u, hprepare, hadmits, slot, happend, hanswers⟩ := run_eq_ok.mp hrun
  obtain ⟨hensure, -⟩ := Registry.prepare_eq_ok.mp hprepare
  have hstep : Op.ensure.run s = .ok .done u := Txn.map_eq_ok.mpr ⟨(), hensure, rfl⟩
  have hready : Op.ensure.Ready s.keys := trivial
  have hreached' := hreached.step hready hstep
  have hclear' : Run.Clear (trace ++ [⟨.ensure, .done, s.keys, u.keys⟩]) registryItem := by
    refine Run.clear_registryItem fun step hmem item hitem => ?_
    rcases List.mem_append.mp hmem with hmem | hmem
    · exact hclear step hmem item hitem
    · rw [List.mem_singleton.mp hmem] at hitem
      cases hitem
      exact ItemId.not_continues_self registryItem
  have hthere := (Registry.ensure_eq_ok hensure).1
  have hholds := Run.holds_of_reached hreached' hclear'
  have hsome := hholds.isThere.symm.trans hthere
  rw [Except.ok.injEq] at hsome
  have hversion := (Run.slotsRecord_of_reached hreached' hclear' hsome).version
  obtain ⟨event, -, hput⟩ := Registry.append_eq_ok.mp happend
  have hslot := (Item.putNext_eq_ok.mp hput).1
  rw [hversion, Except.ok.injEq] at hslot
  have hreplay := Registry.replay_of_current hholds (Run.recorded_of_reached hreached' hclear').1
    ((Registry.current_of_ensure hensure).trans hcurrent)
  have hvsn : r.vsn = (Run.mutations (trace ++ [⟨.ensure, .done, s.keys, u.keys⟩])).length := by
    rw [hreplay, Registry.vsn_replay]
    exact Nat.zero_add _
  have hn : n = slot := by
    cases m with
    | updateEventType entity name schema => exact absurd trivial hanswer
    | _ => exact hanswers
  omega

end Mutation

/-! ## The result -/

/-- A registry mutation, in a store whose registry can be read and whose registry item is there or
can be created. It refuses exactly when the registry does not admit it. If it fails in a transaction of
its own, the registry stays as it is. If nothing speaks against it and its change can be logged, it
succeeds. Then the registry read afterwards has one change more, and only that; and the answer is the
number of the new revision, or else the new version of the registry. -/
theorem Mutation.run_has_effect (m : Mutation) {s u : Session} {r : Registry}
    (hcurrent : Registry.current s.keys = .ok r) (hensure : Registry.ensure s = .ok () u)
    (hreads : m.ReadsBack) :
    (∀ fault : Fault, fault.RefusesMutation →
      ((∃ t, m.run s = .error fault t) ↔ m.Refuses r fault)) ∧
    (∀ fault t, s.update m.run = (.error fault, t) → Registry.current t.keys = .ok r) ∧
    ((∀ fault, ¬ m.Refuses r fault) → m.Logs u → ∃ n t, m.run s = .ok n t) ∧
    ∀ n t, m.run s = .ok n t →
      (∃ r', Registry.current t.keys = .ok r' ∧ m.Effect r r' n) ∧
      ∀ clock trace, Run.Reached clock trace s →
        (∀ step ∈ trace, ∀ item, step.op.item? = some item → ¬ item.Continues registryItem) →
          ¬ m.AnswersRevision → n = r.vsn + 1 := by
  have hprepare : Registry.prepare s = .ok r u :=
    Registry.prepare_eq_ok.mpr ⟨hensure, (Registry.current_of_ensure hensure).trans hcurrent⟩
  refine ⟨fun fault hfault => refused_iff hprepare hfault, fun fault t hupdate => ?_,
    fun hnone hlogs => ?_, fun n t hrun => ⟨?_, fun clock trace hreached hclear hanswer =>
      answer_of_reached hreached hclear hcurrent hrun hanswer⟩⟩
  · rw [Txn.keys_of_update_error hupdate]
    exact hcurrent
  · have hadmits : m.Admits r := (m.refuses_or_admits r).resolve_left fun ⟨fault, h⟩ => hnone fault h
    obtain ⟨slot, t, happend⟩ := hlogs.append
    obtain ⟨n, hrun⟩ := run_of_append hprepare hadmits happend
    exact ⟨n, t, hrun⟩
  · obtain ⟨found, w, hfound, hadmits, slot, -, hanswers⟩ := run_eq_ok.mp hrun
    rw [hprepare] at hfound
    cases hfound
    obtain ⟨before, hbefore, -, hafter⟩ := current_after hrun
    rw [legible_of_readsBack hreads, if_pos rfl] at hafter
    rw [hcurrent, Except.ok.injEq] at hbefore
    rw [← hbefore] at hafter
    exact ⟨_, hafter, effect_change (Registry.named_of_current hcurrent) hadmits hanswers hreads⟩

namespace Run

/-- A store with an entity type and an event type. -/
def described : Session := (run (eachAlone creation) (.start (.steady 5 1))).2

/-- The event type gets a second revision, and it cannot be created again. -/
theorem described_has_effect : ∃ r r' n t, Registry.current described.keys = .ok r ∧
    (Mutation.updateEventType "a" "b" .string).run described = .ok n t ∧
    Registry.current t.keys = .ok r' ∧
    (Mutation.updateEventType "a" "b" .string).Effect r r' n ∧
    (∃ t, (Mutation.createEventType "a" "b" .string).run described =
      .error (.eventTypeExists "a" "b") t) ∧
    ∀ n t, (Mutation.deleteEntityType "a").run described = .ok n t → n = r.vsn + 1 := by
  have hreached := reached (eachAlone creation) (.steady 5 1)
  have hthere : Item.isThere described.keys registryItem = .ok true :=
    Outcome.eq_ok_of_toOption (by decide +kernel)
  have hensure := Registry.ensure_of_isThere hthere
  obtain ⟨r, hcurrent, hheld⟩ := exists_ok_of_any
    (show (Registry.current described.keys).toOption.any (fun r => (r.schema? "a" "b" 0).isSome) =
      true by decide +kernel)
  obtain ⟨schema, hschema⟩ := Option.isSome_iff_exists.mp hheld
  have hreads : (Mutation.updateEventType "a" "b" .string).ReadsBack := by
    obtain ⟨found, hfound, hstring⟩ := (Option.any_eq_true _ _).mp
      (show (Payload.Schema.parse? (Payload.Schema.write .string)).any
        (fun schema => schema matches .string) = true by decide +kernel)
    have hsame : found = .string := by cases found <;> first | rfl | cases hstring
    exact hfound.trans (congrArg some hsame)
  obtain ⟨n, t, hrun⟩ := Txn.succeeds_iff.mp
    (show (Mutation.updateEventType "a" "b" .string).run.succeeds described = true by decide +kernel)
  obtain ⟨-, -, -, heffect⟩ :=
    Mutation.run_has_effect (.updateEventType "a" "b" .string) hcurrent hensure hreads
  obtain ⟨⟨r', hafter, heffect⟩, -⟩ := heffect n t hrun
  obtain ⟨hrefused, -⟩ :=
    Mutation.run_has_effect (.createEventType "a" "b" .string) hcurrent hensure hreads
  obtain ⟨-, -, -, hanswer⟩ :=
    Mutation.run_has_effect (.deleteEntityType "a") hcurrent hensure trivial
  refine ⟨r, r', n, t, hcurrent, hrun, hafter, heffect, ?_, fun n t hrun => ?_⟩
  · exact (hrefused (.eventTypeExists "a" "b") trivial).mpr (.inr ⟨rfl, 0, schema, hschema⟩)
  · refine (hanswer n t hrun).2 _ _ hreached (fun step hstep item hitem => ?_) id
    exact (clear_eachAlone creation (.steady 5 1) step hstep item hitem).1

end Run
end Chronicle
