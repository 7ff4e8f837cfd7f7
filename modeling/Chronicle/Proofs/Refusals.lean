import Mathlib
import Chronicle.Proofs.FaultKinds
import Chronicle.Proofs.Takeover
import Chronicle.Proofs.ViewFolds

/-!
# Refusals

An operation that refuses what it is asked for has written nothing. It comes to its checks before it
writes, and what it does after its first write fails in other ways only. This is so in any store,
also in a damaged one; a registry mutation may have created the registry's item before it refuses.
-/
namespace Chronicle

open Fault (OfWriting OfReading)

/-! ## Faults that refuse -/

namespace Fault

/-- An operation on an item refuses with these. -/
def RefusesItem : Fault → Prop
  | itemExists _ | itemNotFound _ | reservedItem _ | partitionOutOfRange _ => True
  | aliasExists _ | aliasNotFound _ | aliasElsewhere _ _ => True
  | _ => False

/-- A sync of a persistent view refuses with these. -/
def RefusesSync : Fault → Prop
  | emptyViewName | itemNotFound _ => True
  | _ => False

/-- The takeover of an event refuses with these. -/
def RefusesTakeover : Fault → Prop
  | itemExists _ | itemNotFound _ => True
  | _ => False

/-- A registry mutation refuses with these. -/
def RefusesMutation : Fault → Prop
  | entityTypeExists _ | entityTypeNotFound _ => True
  | eventTypeExists _ _ | eventTypeNotFound _ _ => True
  | _ => False

variable {fault : Fault}

theorem RefusesItem.not_ofWriting (h : fault.RefusesItem) : ¬ fault.OfWriting := by
  cases fault <;> first | exact id | cases h

theorem RefusesTakeover.refusesItem (h : fault.RefusesTakeover) : fault.RefusesItem := by
  cases fault <;> first | exact trivial | cases h

theorem RefusesSync.not_ofReading (h : fault.RefusesSync) : ¬ fault.OfReading := by
  cases fault <;> first | exact id | cases h

theorem RefusesMutation.not_ofWriting (h : fault.RefusesMutation) : ¬ fault.OfWriting := by
  cases fault <;> first | exact id | cases h

end Fault

/-! ## Checks before writes -/

namespace Txn

variable {α β : Type} {F : Fault → Prop} {m : Txn α}

/-- With one of these faults the transaction ends where it began. -/
def RefusesFirst (F : Fault → Prop) (m : Txn α) : Prop :=
  ∀ ⦃s fault t⦄, m s = .error fault t → F fault → t = s

theorem FailsIn.refusesFirst (h : m.FailsIn OfWriting) (hF : ∀ {fault}, F fault → ¬ fault.OfWriting) :
    m.RefusesFirst F := fun _ _ _ hm hfault => absurd (h hm) (hF hfault)

theorem refusesFirst_refuse (fault : Fault) : (refuse fault : Txn α).RefusesFirst F := by
  rintro s _ t ⟨⟩ -
  rfl

theorem RefusesFirst.query_bind {read : KeySpace → Outcome β} {f : β → Txn α}
    (h : ∀ b, (f b).RefusesFirst F) : (query read >>= f).RefusesFirst F := by
  intro s fault t hm hfault
  rcases bind_eq_error.mp hm with hquery | ⟨b, u, hquery, hrest⟩
  · exact (query_eq_error hquery).symm
  · obtain ⟨-, rfl⟩ := query_eq_ok.mp hquery
    exact h b hrest hfault

/-- What comes after a result that does not depend on the store may rely on it. -/
theorem RefusesFirst.lift_bind {outcome : Outcome β} {f : β → Txn α}
    (h : ∀ b, outcome = .ok b → (f b).RefusesFirst F) : (lift outcome >>= f).RefusesFirst F := by
  intro s fault t hm hfault
  rcases bind_eq_error.mp hm with hlift | ⟨b, u, hlift, hrest⟩
  · exact (lift_eq_error hlift).symm
  · obtain ⟨hok, rfl⟩ := lift_eq_ok.mp hlift
    exact h b hok hrest hfault

theorem RefusesFirst.refuse_if {c : Prop} [Decidable c] {refused : Fault} {f : PUnit → Txn β}
    (h : (f ⟨⟩).RefusesFirst F) :
    (if c then refuse refused >>= f else f ⟨⟩).RefusesFirst F := by
  intro s fault t hm hfault
  rcases refuse_if_of_error hm with rfl | hrest
  · rfl
  · exact h hrest hfault

theorem RefusesFirst.bind {f : α → Txn β} (hm : m.RefusesFirst F)
    (hf : ∀ a, (f a).FailsIn OfWriting) (hF : ∀ {fault}, F fault → ¬ fault.OfWriting) :
    (m >>= f).RefusesFirst F := by
  intro s fault t h hfault
  rcases bind_eq_error.mp h with hfirst | ⟨a, u, -, hrest⟩
  · exact hm hfirst hfault
  · exact absurd (hf a hrest) (hF hfault)

end Txn

/-! ## Operations on an item -/

namespace Item

variable {item : ItemId} {F : Fault → Prop}

section

variable (hF : ∀ {fault}, F fault → ¬ fault.OfWriting)
include hF

theorem append_refusesFirst (slot : Nat) (event : Event) :
    (append item slot event).RefusesFirst F := by
  intro s fault t h hfault
  rcases Txn.bind_eq_error.mp h with hlift | ⟨partition, u, hlift, -⟩
  · exact (Txn.lift_eq_error hlift).symm
  · exact absurd (failsIn_append (Txn.lift_eq_ok.mp hlift).1 slot event h) (hF hfault)

theorem putNext_refusesFirst (event : Event) : (putNext item event).RefusesFirst F :=
  .query_bind fun _ => (append_refusesFirst hF _ _).bind (fun _ => Txn.failsIn_pure _) hF

theorem put_refusesFirst (event : Event) : (put item event).RefusesFirst F := by
  unfold put
  split_ifs
  · exact Txn.refusesFirst_refuse _
  · exact putNext_refusesFirst hF event

theorem create_refusesFirst : (create item).RefusesFirst F := by
  refine .query_bind fun there => .refuse_if ?_
  refine .lift_bind fun partition hpartition => Txn.FailsIn.refusesFirst ?_ hF
  exact (failsIn_initIndex item).bind fun _ => failsIn_append hpartition _ _

theorem delete_refusesFirst : (delete item).RefusesFirst F :=
  (put_refusesFirst hF _).bind (fun _ => failsIn_teardown item) hF

theorem addAlias_refusesFirst (aliasId : ItemId) : (addAlias item aliasId).RefusesFirst F :=
  .query_bind fun _ => .refuse_if
    ((put_refusesFirst hF _).bind (fun _ => failsIn_link item aliasId) hF)

theorem removeAlias_refusesFirst (aliasId : ItemId) : (removeAlias item aliasId).RefusesFirst F :=
  .query_bind fun _ => .refuse_if
    ((put_refusesFirst hF _).bind (fun _ => failsIn_unlink item aliasId) hF)

/-! ## Takeovers -/

theorem startIndex_refusesFirst (event : Event) : (startIndex item event).RefusesFirst F := by
  unfold startIndex
  split_ifs
  · exact .query_bind fun _ => .refuse_if ((failsIn_initIndex item).refusesFirst hF)
  · exact (Txn.failsIn_pure _).refusesFirst hF

omit hF in
theorem failsIn_settle (event : Event) : (settle item event).FailsIn OfWriting := by
  unfold settle
  have htarget := Txn.failsIn_lift event.failsIn_aliasTarget
  split_ifs
  · exact failsIn_teardown item
  · exact htarget.bind (failsIn_link item)
  · exact htarget.bind (failsIn_unlink item)
  · exact Txn.failsIn_pure _

theorem replicate_refusesFirst (entry : LogEvent) : (replicate entry).RefusesFirst F := by
  rw [replicate_eq]
  refine .lift_bind fun found _ => ?_
  have hrest : ∀ slot, (recordSlot found.item slot entry.id entry.mark >>= fun _ =>
      settle found.item found.event).FailsIn OfWriting := fun slot =>
    (failsIn_recordSlot _ _ _ _).bind fun _ => failsIn_settle _
  intro s fault t h hfault
  rcases Txn.bind_eq_error.mp h with hstart | ⟨_, u, hstart, h⟩
  · exact startIndex_refusesFirst hF _ hstart hfault
  unfold startIndex at hstart
  split_ifs at hstart
  · -- the index has been started, so the item has a version
    obtain ⟨there, w, -, hinit⟩ := Txn.bind_eq_ok.mp hstart
    have hversion := version_of_initIndex (Txn.refuse_if_eq_ok.mp hinit).2
    rw [Txn.bind_of_ok (Txn.query_of_ok hversion)] at h
    exact absurd (hrest 0 h) (hF hfault)
  · obtain ⟨-, rfl⟩ := Txn.pure_eq_ok.mp hstart
    exact Txn.RefusesFirst.query_bind (fun slot => (hrest slot).refusesFirst hF) h hfault

end

/-! ## Syncs -/

variable {σ : Type}

/-- A visit of `count` slots from `slot` on comes to an event at which `f` returns the fault. -/
def VisitReturns (keys : KeySpace) (item : ItemId) (f : σ → Event → Outcome (Visit σ))
    (fault : Fault) : Nat → Nat → σ → Prop
  | 0, _, _ => False
  | count + 1, slot, state => ∃ event, slotEvent keys item slot = .ok event ∧
      (f state event = .error fault ∨ ∃ next, f state event = .ok (.next next) ∧
        VisitReturns keys item f fault count (slot + 1) next)

/-- In this sync one of the view's own functions returns the fault: when the first state is encoded,
when the state of the checkpoint is decoded, when an event is folded or when the last state is
encoded. -/
inductive ViewReturns (item : ItemId) (name : Bytes) (v : View σ) (initial : σ) (s : Session)
    (fault : Fault) : Prop
  | first (hnone : checkpoint? s.keys item name = .ok none) (h : v.encode initial = .error fault)
  | decode {c : Checkpoint} {u : Session} (hstarts : SyncStarts item name v initial s c u)
      (h : v.decode c.state = .error fault)
  | fold {c : Checkpoint} {u : Session} {state : σ} {n : Nat}
      (hstarts : SyncStarts item name v initial s c u) (hstate : v.decode c.state = .ok state)
      (hversion : version u.keys item = .ok n)
      (h : VisitReturns u.keys item v.fold fault (n - c.vsn.toNat) c.vsn.toNat state)
  | last {c : Checkpoint} {u : Session} {state result : σ} {slot : Nat}
      (hstarts : SyncStarts item name v initial s c u) (hstate : v.decode c.state = .ok state)
      (hview : view u.keys item c.vsn.toNat state v.fold = .ok (result, some slot))
      (h : v.encode result = .error fault)

theorem foldSlots_visit_eq_error {keys : KeySpace} {f : σ → Event → Outcome (Visit σ)}
    {fault : Fault} {count slot : Nat} {state : σ} {last : Option Nat}
    (h : foldSlots keys item (view.visit f) count slot (state, last) = .error fault) :
    fault.OfReading ∨ VisitReturns keys item f fault count slot state := by
  induction count generalizing slot state last with
  | zero => cases h
  | succ count ih =>
    rw [foldSlots] at h
    cases hevent : slotEvent keys item slot with
    | error found =>
      rw [hevent] at h
      cases h
      exact .inl (failsIn_slotEvent keys item slot fault hevent)
    | ok event =>
      cases hf : f state event with
      | error found =>
        simp [hevent, view.visit, hf, bind, Except.bind] at h
        exact .inr ⟨event, hevent, .inl (h ▸ hf)⟩
      | ok visited =>
        cases visited with
        | stop stopped =>
          simp [hevent, view.visit, hf, bind, Except.bind, pure, Except.pure] at h
        | next next =>
          simp only [hevent, view.visit, hf, bind, Except.bind, pure, Except.pure] at h
          exact (ih h).imp_right fun hlater => ⟨event, hevent, .inr ⟨next, hf, hlater⟩⟩

variable {name : Bytes} {v : View σ} {initial : σ} {s t u : Session} {c : Checkpoint} {fault : Fault}

/-- The registration of a view leaves the version of the item. -/
theorem SyncStarts.version_after (h : SyncStarts item name v initial s c u) :
    ∃ n, version u.keys item = .ok n := by
  obtain ⟨n, hversion⟩ := version_of_starts h
  obtain ⟨-, rfl⟩ | ⟨-, bytes, -, hregister⟩ := h
  · exact ⟨n, hversion⟩
  · have hframe := (registerView_within hregister).frame not_aside_version
    exact ⟨n, (version_congr hframe).trans hversion⟩

/-- From its checkpoint on, a sync fails in reading or writing or in one of the view's functions. -/
theorem syncFrom_eq_error (hstarts : SyncStarts item name v initial s c u)
    (h : syncFrom item name v c u = .error fault t) :
    fault.OfReading ∨ ViewReturns item name v initial s fault := by
  rcases Txn.bind_eq_error.mp h with hlift | ⟨state, w, hlift, h⟩
  · exact .inr (.decode hstarts (Txn.error_of_lift hlift))
  obtain ⟨hstate, rfl⟩ := Txn.lift_eq_ok.mp hlift
  rcases Txn.bind_eq_error.mp h with hquery | ⟨⟨result, visited⟩, w, hquery, h⟩
  · obtain ⟨n, hversion⟩ := hstarts.version_after
    have hview := Txn.error_of_query hquery
    unfold view at hview
    rw [hversion] at hview
    exact (foldSlots_visit_eq_error hview).imp_right fun hreturns =>
      .fold hstarts hstate hversion hreturns
  obtain ⟨hview, rfl⟩ := Txn.query_eq_ok.mp hquery
  cases visited with
  | none => cases h
  | some last =>
    rcases Txn.bind_eq_error.mp h with hlift | ⟨bytes, w, hlift, h⟩
    · exact .inr (.last hstarts hstate hview (Txn.error_of_lift hlift))
    · exact .inl (((failsIn_setCheckpoint name _).bind fun _ => Txn.failsIn_pure _) h).ofReading

theorem sync_of_refusal (hfault : fault.RefusesSync)
    (hown : ¬ ViewReturns item name v initial s fault)
    (h : sync item name v initial s = .error fault t) : t = s := by
  rw [sync_eq] at h
  rcases Txn.bind_eq_error.mp h with hquery | ⟨found, w, hquery, h⟩
  · exact (Txn.query_eq_error hquery).symm
  obtain ⟨hfound, rfl⟩ := Txn.query_eq_ok.mp hquery
  have hfrom : ∀ {c u}, SyncStarts item name v initial s c u →
      syncFrom item name v c u ≠ .error fault t := by
    intro c u hstarts hrest
    rcases syncFrom_eq_error hstarts hrest with hreading | hreturns
    · exact hfault.not_ofReading hreading
    · exact hown hreturns
  cases found with
  | some c => exact absurd h (hfrom (.inl ⟨hfound, rfl⟩))
  | none =>
    rcases Txn.bind_eq_error.mp h with hlift | ⟨bytes, w, hlift, h⟩
    · exact (Txn.lift_eq_error hlift).symm
    obtain ⟨hencode, rfl⟩ := Txn.lift_eq_ok.mp hlift
    rcases Txn.bind_eq_error.mp h with hregister | ⟨c, u, hregister, h⟩
    · exact absurd (failsIn_registerView name bytes hregister).ofReading hfault.not_ofReading
    · exact absurd h (hfrom (.inr ⟨hfound, bytes, hencode, hregister⟩))

/-- A sync that does not come to its checkpoint calls none of the view's own functions. -/
theorem not_viewReturns {other : Fault} (h : checkpoint? s.keys item name = .error other) :
    ¬ ViewReturns item name v initial s fault := by
  have hstarts : ∀ {c u}, ¬ SyncStarts item name v initial s c u := by
    rintro c u (⟨hfound, -⟩ | ⟨hfound, -⟩) <;> rw [h] at hfound <;> cases hfound
  rintro (⟨hnone, -⟩ | ⟨hc, -⟩ | ⟨hc, -, -, -⟩ | ⟨hc, -, -, -⟩)
  · rw [h] at hnone
    cases hnone
  all_goals exact hstarts hc

end Item

/-! ## Registry mutations -/

theorem Change.failsIn_toEvent (c : Change) : Outcome.FailsIn OfWriting c.toEvent := by
  cases c <;> exact (failsIn_record _).bind fun _ => Outcome.failsIn_ok _

/-- What the append of a change fails with is no refusal of the mutation. -/
theorem Registry.not_refusal_of_append {c : Change} {s t : Session} {fault : Fault}
    (h : append c s = .error fault t) : ¬ fault.RefusesMutation := by
  have hrefusal : ∀ {fault : Fault}, fault.OfWriting → ¬ fault.RefusesMutation :=
    fun hwriting hrefuses => hrefuses.not_ofWriting hwriting
  have hpartition : registryItem.partition = .ok 0 := rfl
  rcases Txn.bind_eq_error.mp h with hlift | ⟨event, u, -, hput⟩
  · exact hrefusal (c.failsIn_toEvent _ (Txn.error_of_lift hlift))
  rcases Txn.bind_eq_error.mp hput with hversion | ⟨slot, w, -, happend⟩
  · replace hversion := Txn.error_of_query hversion
    unfold Item.version at hversion
    cases hfound : Item.version? u.keys registryItem with
    | error found =>
      rw [hfound] at hversion
      cases hversion
      exact hrefusal (Item.failsIn_version? _ _ _ hfound)
    | ok found =>
      rw [hfound] at hversion
      cases found with
      | some n => cases hversion
      | none =>
        cases hversion
        exact id
  · exact hrefusal (((Item.failsIn_append hpartition slot event).bind fun _ =>
      Txn.failsIn_pure slot) happend)

/-- A mutation that refuses leaves what there is once the registry's item is in place. -/
theorem Mutation.run_of_refusal {m : Mutation} {s t : Session} {fault : Fault}
    (hfault : fault.RefusesMutation) (h : m.run s = .error fault t) :
    t = Registry.ensure.leaves s := by
  rcases run_of_error h with hensure | ⟨u, hensure, rfl | happend⟩
  · exact (Txn.leaves_of_error hensure).symm
  · exact (Txn.leaves_of_ok hensure).symm
  · exact absurd hfault (Registry.not_refusal_of_append happend)

/-! ## The result -/

/-- In any store, an operation on an item that refuses leaves everything as it is, and so do a sync
of a persistent view, unless one of the view's own functions has returned the fault, and the
takeover of an event. A registry mutation that refuses leaves what there is once the registry's item
is in place. -/
theorem refusals_write_nothing (s t : Session) (fault : Fault) :
    (fault.RefusesItem → ∀ item : ItemId,
      (Item.create item s = .error fault t → t = s) ∧
      (∀ event, Item.put item event s = .error fault t → t = s) ∧
      (Item.delete item s = .error fault t → t = s) ∧
      (∀ aliasId, Item.addAlias item aliasId s = .error fault t → t = s) ∧
      ∀ aliasId, Item.removeAlias item aliasId s = .error fault t → t = s) ∧
    (fault.RefusesSync → ∀ {σ : Type} (item : ItemId) (name : Bytes) (v : View σ) (initial : σ),
      ¬ Item.ViewReturns item name v initial s fault →
        Item.sync item name v initial s = .error fault t → t = s) ∧
    (fault.RefusesTakeover → ∀ entry, Item.replicate entry s = .error fault t → t = s) ∧
    (fault.RefusesMutation → ∀ m : Mutation, m.run s = .error fault t →
      t = Registry.ensure.leaves s) := by
  refine ⟨fun hfault item => ⟨fun h => ?_, fun _ h => ?_, fun h => ?_, fun _ h => ?_, fun _ h => ?_⟩,
    fun hfault {σ} item name v initial hown h => Item.sync_of_refusal hfault hown h,
    fun hfault entry h => ?_, fun hfault m h => Mutation.run_of_refusal hfault h⟩
  · exact Item.create_refusesFirst (fun h => h.not_ofWriting) h hfault
  · exact Item.put_refusesFirst (fun h => h.not_ofWriting) _ h hfault
  · exact Item.delete_refusesFirst (fun h => h.not_ofWriting) h hfault
  · exact Item.addAlias_refusesFirst (fun h => h.not_ofWriting) _ h hfault
  · exact Item.removeAlias_refusesFirst (fun h => h.not_ofWriting) _ h hfault
  · exact Item.replicate_refusesFirst (fun h => h.refusesItem.not_ofWriting) _ h hfault

namespace Refusals

/-- An item that is not there. -/
def nobody : ItemId := ⟨1, [120]⟩

/-- A view that counts events. -/
def counting : View UInt8 where
  fold n _ := .ok (.next (n + 1))
  encode n := .ok [n]
  decode bytes := .ok (bytes.headD 0)

/-- An event of `nobody` in the log. -/
def stray : LogEvent :=
  ⟨Kind.entity, .zero, [1, 0, 1, 0, 0, 0, 0, 0, 0, 0, 120] ++ List.replicate 16 0⟩

/-- An empty store. -/
def unused : Session := .start (.steady 5 1)

/-- The session that a failure leaves, if the fault is one that `p` picks. -/
def failure? {α : Type} (m : Txn α) (p : Fault → Bool) (s : Session) : Option Session :=
  match m s with
  | .ok _ _ => none
  | .error fault t => if p fault then some t else none

theorem exists_of_failure? {α : Type} {m : Txn α} {p : Fault → Bool} {s : Session}
    (h : (failure? m p s).isSome = true) : ∃ fault t, m s = .error fault t ∧ p fault = true := by
  unfold failure? at h
  cases hm : m s with
  | ok a t => rw [hm] at h; cases h
  | error fault t =>
    rw [hm] at h
    by_cases hp : p fault = true
    · exact ⟨fault, t, rfl, hp⟩
    · simp [hp] at h

/-- In an empty store all of these are refused, and the last one leaves the registry's item. -/
theorem unused_stays_unused :
    (∃ fault, Item.put nobody (.entity [] []) unused = .error fault unused) ∧
    (∃ fault, Item.sync nobody [] counting 0 unused = .error fault unused) ∧
    (∃ fault, Item.replicate stray unused = .error fault unused) ∧
    ∃ fault t, (Mutation.deleteEntityType "a").run unused = .error fault t ∧
      t = Registry.ensure.leaves unused ∧ Item.isThere t.keys registryItem = .ok true := by
  refine ⟨?put, ?sync, ?takeover, ?mutation⟩
  case put =>
    obtain ⟨fault, t, h, hp⟩ := exists_of_failure? (m := Item.put nobody (.entity [] []))
      (p := fun fault => fault matches .itemNotFound _) (s := unused) (by decide +kernel)
    have hfault : fault.RefusesItem := by cases fault <;> first | exact trivial | cases hp
    exact ⟨fault, by rw [h, ((refusals_write_nothing _ _ _).1 hfault nobody).2.1 _ h]⟩
  case sync =>
    obtain ⟨fault, t, h, hp⟩ := exists_of_failure? (m := Item.sync nobody [] counting 0)
      (p := fun fault => fault matches .emptyViewName) (s := unused) (by decide +kernel)
    have hfault : fault.RefusesSync := by cases fault <;> first | exact trivial | cases hp
    have hname : Item.checkpoint? unused.keys nobody [] = .error .emptyViewName := rfl
    have hown : ¬ Item.ViewReturns nobody [] counting 0 unused fault := Item.not_viewReturns hname
    exact ⟨fault, by rw [h, (refusals_write_nothing _ _ _).2.1 hfault _ _ _ _ hown h]⟩
  case takeover =>
    obtain ⟨fault, t, h, hp⟩ := exists_of_failure? (m := Item.replicate stray)
      (p := fun fault => fault matches .itemNotFound _) (s := unused) (by decide +kernel)
    have hfault : fault.RefusesTakeover := by cases fault <;> first | exact trivial | cases hp
    exact ⟨fault, by rw [h, (refusals_write_nothing _ _ _).2.2.1 hfault _ h]⟩
  case mutation =>
    obtain ⟨fault, t, h, hp⟩ := exists_of_failure? (m := (Mutation.deleteEntityType "a").run)
      (p := fun fault => fault matches .entityTypeNotFound _) (s := unused) (by decide +kernel)
    have hfault : fault.RefusesMutation := by cases fault <;> first | exact trivial | cases hp
    have hleft := (refusals_write_nothing _ _ _).2.2.2 hfault _ h
    refine ⟨fault, t, h, hleft, ?_⟩
    rw [hleft]
    exact Outcome.eq_ok_of_toOption (by decide +kernel)

end Refusals
end Chronicle
