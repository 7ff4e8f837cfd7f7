import Mathlib
import Chronicle.Registry.Mutation
import Chronicle.Proofs.Appending

/-!
# Invariants of operations

What all parts of an operation preserve, the operation preserves, whether it succeeds or fails. For
an invariant it remains to look at the writes.
-/
namespace Chronicle

variable {I : Session → Prop}

namespace Item

variable {item x : ItemId} {slot : Nat} {event : Event}

/-! ## Items -/

theorem keeps_initIndex (hversion : (setVersion item 0).Keeps I)
    (haliases : (setList (Key.aliases item) ([] : List ItemId)).Keeps I)
    (hviews : (setList (Key.views item) ([] : List Bytes)).Keeps I) : (initIndex item).Keeps I := by
  refine hversion.bind fun _ => ?_
  refine haliases.bind fun _ => ?_
  exact hviews

/-- A teardown deletes keys of its item and pointers. -/
theorem keeps_teardown (hsub : ∀ k, (Txn.delete (Key.sub item k)).Keeps I)
    (hpointer : ∀ x, (Txn.delete (Key.pointer x)).Keeps I) : (teardown item).Keeps I := by
  refine (Txn.keeps_query _).bind fun aliases => ?_
  refine (Txn.keeps_forM fun x _ => hpointer x).bind fun _ => ?_
  refine (hsub .aliases).bind fun _ => ?_
  refine (Txn.keeps_query _).bind fun names => ?_
  refine (Txn.keeps_forM fun name _ => hsub (.view name)).bind fun _ => ?_
  refine (hsub (.view [])).bind fun _ => ?_
  refine (Txn.keeps_query _).bind fun slots => ?_
  refine (Txn.keeps_forM fun n _ => hsub (.slot (UInt64.ofNat n))).bind fun _ => ?_
  exact hsub .version

theorem keeps_link (hpoint : (Txn.set (Key.pointer x) item.encode 0).Keeps I)
    (haliases : ∀ xs : List ItemId, (setList (Key.aliases item) xs).Keeps I) :
    (link item x).Keeps I := by
  refine hpoint.bind fun _ => ?_
  refine (Txn.keeps_query _).bind fun xs => ?_
  exact haliases _

theorem keeps_unlink (hpointer : (Txn.delete (Key.pointer x)).Keeps I)
    (haliases : ∀ xs : List ItemId, (setList (Key.aliases item) xs).Keeps I) :
    (unlink item x).Keeps I := by
  refine hpointer.bind fun _ => ?_
  refine (Txn.keeps_query _).bind fun xs => ?_
  exact haliases _

theorem keeps_append (hput : ∀ partition event, (Log.put partition event).Keeps I)
    (hrecord : ∀ id, (recordSlot item slot id event.kind).Keeps I) :
    (append item slot event).Keeps I := by
  refine (Txn.keeps_lift _).bind fun partition => ?_
  refine (Txn.keeps_lift _).bind fun payload => ?_
  refine (hput partition _).bind fun id => ?_
  exact hrecord id

theorem keeps_putNext (happend : ∀ slot, (append item slot event).Keeps I) :
    (putNext item event).Keeps I := by
  refine (Txn.keeps_query _).bind fun slot => ?_
  refine (happend slot).bind fun _ => ?_
  exact Txn.keeps_pure slot

theorem keeps_put (hnext : (putNext item event).Keeps I) : (put item event).Keeps I :=
  Txn.keeps_ite (Txn.keeps_refuse _) hnext

theorem keeps_create (hinit : (initIndex item).Keeps I)
    (happend : (append item 0 (Event.lifecycle .created [])).Keeps I) : (create item).Keeps I := by
  refine (Txn.keeps_query _).bind fun there => ?_
  refine Txn.keeps_refuse_if ?_
  refine (Txn.keeps_lift _).bind fun partition => ?_
  refine hinit.bind fun _ => ?_
  exact happend

theorem keeps_deleteItem (hput : (put item (Event.lifecycle .deleted [])).Keeps I)
    (hteardown : (teardown item).Keeps I) : (delete item).Keeps I :=
  hput.bind fun _ => hteardown

theorem keeps_addAlias (hput : (put item (Event.lifecycle .aliased x.encode)).Keeps I)
    (hlink : (link item x).Keeps I) : (addAlias item x).Keeps I := by
  refine (Txn.keeps_query _).bind fun taken => ?_
  refine Txn.keeps_refuse_if ?_
  exact hput.bind fun _ => hlink

theorem keeps_removeAlias (hput : (put item (Event.lifecycle .unaliased x.encode)).Keeps I)
    (hunlink : (unlink item x).Keeps I) : (removeAlias item x).Keeps I := by
  refine (Txn.keeps_query _).bind fun target => ?_
  refine Txn.keeps_refuse_if ?_
  exact hput.bind fun _ => hunlink

/-! ## Views -/

variable {σ : Type} {name : Bytes} {v : View σ}

/-- What a sync does from its checkpoint on. -/
def syncFrom (item : ItemId) (name : Bytes) (v : View σ) (c : Checkpoint) : Txn σ := do
  let state ← Txn.lift (v.decode c.state)
  let (state, visited) ← Txn.query fun keys => view keys item c.vsn.toNat state v.fold
  match visited with
  | some last =>
    setCheckpoint item name ⟨UInt64.ofNat (last + 1), ← Txn.lift (v.encode state)⟩
    return state
  | none => return state

theorem sync_eq (item : ItemId) (name : Bytes) (v : View σ) (initial : σ) :
    sync item name v initial = (do
      match ← Txn.query fun keys => checkpoint? keys item name with
      | some c => syncFrom item name v c
      | none =>
        let bytes ← Txn.lift (v.encode initial)
        let c ← registerView item name bytes
        syncFrom item name v c) := rfl

theorem name_ne_nil_of_checkpoint? {keys : KeySpace} {name : Bytes} {found : Option Checkpoint}
    (h : checkpoint? keys item name = .ok found) : name ≠ [] := by
  rintro rfl
  cases h

theorem keeps_registerView {state : Bytes} (hset : ∀ c, (setCheckpoint item name c).Keeps I)
    (hviews : ∀ names : List Bytes, (setList (Key.views item) names).Keeps I) :
    (registerView item name state).Keeps I := by
  refine (hset _).bind fun _ => ?_
  refine (Txn.keeps_query _).bind fun names => ?_
  refine (hviews _).bind fun _ => ?_
  exact Txn.keeps_pure _

theorem keeps_syncFrom {c : Checkpoint} (hset : ∀ c, (setCheckpoint item name c).Keeps I) :
    (syncFrom item name v c).Keeps I := by
  refine (Txn.keeps_lift _).bind fun state => ?_
  refine (Txn.keeps_query _).bind fun folded => ?_
  obtain ⟨state, visited⟩ := folded
  cases visited with
  | none => exact Txn.keeps_pure _
  | some last =>
    refine (Txn.keeps_lift _).bind fun bytes => ?_
    refine (hset _).bind fun _ => ?_
    exact Txn.keeps_pure _

/-- A sync writes checkpoints, under a name that is not empty, and the list of views. -/
theorem keeps_sync (v : View σ) (initial : σ)
    (hset : name ≠ [] → ∀ c, (setCheckpoint item name c).Keeps I)
    (hviews : ∀ names : List Bytes, (setList (Key.views item) names).Keeps I) :
    (sync item name v initial).Keeps I := by
  rw [sync_eq]
  refine (Txn.keeps_query _).bind_of_ok fun {_ found _} _ hquery ht => ?_
  have hname := name_ne_nil_of_checkpoint? (Txn.query_eq_ok.mp hquery).1
  cases found with
  | some c => exact keeps_syncFrom (hset hname) _ ht
  | none =>
    refine ((Txn.keeps_lift _).bind fun state => ?_) _ ht
    refine (keeps_registerView (hset hname) hviews).bind fun c => ?_
    exact keeps_syncFrom (hset hname)

end Item

/-! ## The registry -/

theorem Registry.keeps_ensure_of_create (hcreate : (Item.create registryItem).Keeps I) :
    ensure.Keeps I := by
  refine (Txn.keeps_query _).bind fun there => ?_
  exact Txn.keeps_ite (Txn.keeps_pure _) hcreate

end Chronicle
