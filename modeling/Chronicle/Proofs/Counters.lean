import Mathlib
import Chronicle.Proofs.Slots

/-!
# Counters

A version is a counter of eight bytes. Under the key where the version of one item would stand
another item may have a slot or a view, but what it keeps there has another length. The items whose
versions can be read are therefore among those that a run is about.
-/
namespace Chronicle

variable {P : ItemId → Prop} {keys : KeySpace} {item : ItemId} {s₀ s t : Session}

/-- Every version that can be read is that of an item in `P`. -/
def Counted (P : ItemId → Prop) (keys : KeySpace) : Prop :=
  ∀ item n, Item.version keys item = .ok n → P item

theorem Item.stored_of_version {n : Nat} (h : version keys item = .ok n) : ∃ mark value,
    keys.stored? (Key.version item) = some (mark :: value) ∧ value.length = 8 := by
  obtain ⟨entry, counter, hget, hcounter, -⟩ := counter_of_version h
  refine ⟨entry.mark, entry.value, KeySpace.stored?_of_get hget, ?_⟩
  by_contra hlength
  rw [Counter.decode, if_neg hlength] at hcounter
  cases hcounter

namespace Counted

theorem empty : Counted P .empty := by
  intro item n h
  obtain ⟨mark, value, hstored, -⟩ := Item.stored_of_version h
  simp at hstored

theorem erase (h : Counted P keys) (key : Bytes) : Counted P (keys.erase key) := by
  intro item n hversion
  by_cases heq : key = Key.version item
  · obtain ⟨mark, value, hstored, -⟩ := Item.stored_of_version hversion
    rw [heq, KeySpace.stored?_erase_self] at hstored
    cases hstored
  · rw [Item.version_congr (KeySpace.stored?_erase_of_ne _ heq)] at hversion
    exact h item n hversion

/-- A new value, with a condition where it could be read as a version. -/
theorem insert {key value : Bytes} (h : Counted P keys) (mark : UInt8)
    (hkey : ∀ item, key = Key.version item → value.length = 8 → P item) :
    Counted P (keys.insert key (mark :: value)) := by
  intro item n hversion
  by_cases heq : key = Key.version item
  · obtain ⟨_, _, hstored, hlength⟩ := Item.stored_of_version hversion
    rw [heq, KeySpace.stored?_insert_self] at hstored
    cases hstored
    exact hkey item heq hlength
  · rw [Item.version_congr (KeySpace.stored?_insert_of_ne _ _ heq)] at hversion
    exact h item n hversion

theorem insert_version (h : Counted P keys) (hitem : P item) (mark : UInt8) (value : Bytes) :
    Counted P (keys.insert (Key.version item) (mark :: value)) :=
  h.insert mark fun _ heq _ => Key.sub_left_injective (k := .version) heq ▸ hitem

/-- The key of a list has another mark than that of a version. -/
theorem insert_list (h : Counted P keys) {m : UInt8} (hm : m ≠ Key.versionMark) (mark : UInt8)
    (value : Bytes) : Counted P (keys.insert (Key.index item m []) (mark :: value)) := by
  refine h.insert mark fun other heq _ => ?_
  have hlast := Key.getLast?_index item m
  rw [heq, Key.version, Key.getLast?_index, Option.some.injEq] at hlast
  exact absurd hlast.symm hm

theorem insert_long (h : Counted P keys) {value : Bytes} (hvalue : 8 < value.length) (key : Bytes)
    (mark : UInt8) : Counted P (keys.insert key (mark :: value)) :=
  h.insert mark fun _ _ hlength => absurd hlength hvalue.ne'

theorem insert_log (h : Counted P keys) (id : EventId) (mark : UInt8) (value : Bytes) :
    Counted P (keys.insert (Key.log id) (mark :: value)) :=
  h.insert mark fun other heq _ => absurd heq (Key.log_ne_sub id other .version)

theorem insert_pointer (h : Counted P keys) (x : ItemId) (mark : UInt8) (value : Bytes) :
    Counted P (keys.insert (Key.pointer x) (mark :: value)) :=
  h.insert mark fun other heq _ => absurd heq (Key.pointer_ne_sub other x .version)

end Counted

/-! ## What operations preserve -/

/-- The invariant, of a session. -/
abbrev Txn.KeepsCounted {α : Type} (P : ItemId → Prop) (m : Txn α) : Prop :=
  m.Keeps fun s => Counted P s.keys

namespace Item

theorem keepsCounted_delete (key : Bytes) : (Txn.delete key).KeepsCounted P :=
  Txn.keeps_delete fun _ h => h.erase key

theorem keepsCounted_setList {α : Type} [Packed α] {m : UInt8} (hm : m ≠ Key.versionMark)
    (xs : List α) : (setList (Key.index item m []) xs).KeepsCounted P := by
  refine (Txn.keeps_lift _).bind fun bytes => ?_
  exact Txn.keeps_set fun s h => h.insert_list hm _ _

theorem keepsCounted_setAliases (xs : List ItemId) :
    (setList (Key.aliases item) xs).KeepsCounted P := keepsCounted_setList (by decide) xs

theorem keepsCounted_setViews (names : List Bytes) :
    (setList (Key.views item) names).KeepsCounted P := keepsCounted_setList (by decide) names

theorem keepsCounted_teardown : (teardown item).KeepsCounted P :=
  keeps_teardown (fun _ => keepsCounted_delete _) fun _ => keepsCounted_delete _

theorem keepsCounted_link (x : ItemId) : (link item x).KeepsCounted P :=
  keeps_link (Txn.keeps_set fun _ h => h.insert_pointer x _ _) keepsCounted_setAliases

theorem keepsCounted_unlink (x : ItemId) : (unlink item x).KeepsCounted P :=
  keeps_unlink (keepsCounted_delete _) keepsCounted_setAliases

theorem keepsCounted_setCheckpoint (name : Bytes) (c : Checkpoint) :
    (setCheckpoint item name c).KeepsCounted P := by
  refine (Txn.keeps_lift _).bind_of_ok fun _ hlift ht => ?_
  have hlong := le_length_record_checkpoint (Txn.lift_eq_ok.mp hlift).1
  exact Txn.keeps_set (I := fun s => Counted P s.keys)
    (fun _ h => h.insert_long (by omega) _ _) _ ht

theorem keepsCounted_sync {σ : Type} (name : Bytes) (v : View σ) (initial : σ) :
    (sync item name v initial).KeepsCounted P :=
  keeps_sync v initial (fun _ c => keepsCounted_setCheckpoint name c) keepsCounted_setViews

end Item

theorem Log.keepsCounted_putAt (partition : UInt8) (timestamp : UInt64) (event : LogEvent) :
    (putAt partition timestamp event).KeepsCounted P := by
  refine (Txn.keeps_query _).bind fun id => ?_
  refine (Txn.keeps_set fun s h => h.insert_log id _ _).bind fun _ => ?_
  exact Txn.keeps_pure id

theorem Log.keepsCounted_put (partition : UInt8) (event : LogEvent) :
    (put partition event).KeepsCounted P := by
  refine (Txn.keeps_now fun s h => h).bind fun timestamp => ?_
  exact keepsCounted_putAt partition timestamp event

namespace Item

/-! ### On items of the run -/

section

variable (hitem : P item)

include hitem

theorem keepsCounted_setVersion (n : Nat) : (setVersion item n).KeepsCounted P :=
  Txn.keeps_ite (Txn.keeps_set fun _ h => h.insert_version hitem _ _) (Txn.keeps_refuse _)

theorem keepsCounted_initIndex : (initIndex item).KeepsCounted P :=
  keeps_initIndex (keepsCounted_setVersion hitem 0) (keepsCounted_setAliases [])
    (keepsCounted_setViews [])

theorem keepsCounted_recordSlot (slot : Nat) (id : EventId) (kind : UInt8) :
    (recordSlot item slot id kind).KeepsCounted P := by
  have hlength : 8 < (Key.log id).length := by
    rw [Key.length_log]
    decide
  refine (Txn.keeps_set fun s h => h.insert_long hlength _ _).bind fun _ => ?_
  exact keepsCounted_setVersion hitem (slot + 1)

theorem keepsCounted_append (slot : Nat) (event : Event) :
    (append item slot event).KeepsCounted P :=
  keeps_append Log.keepsCounted_put fun id => keepsCounted_recordSlot hitem slot id event.kind

theorem keepsCounted_putNext (event : Event) : (putNext item event).KeepsCounted P :=
  keeps_putNext fun slot => keepsCounted_append hitem slot event

theorem keepsCounted_put (event : Event) : (put item event).KeepsCounted P :=
  keeps_put (keepsCounted_putNext hitem event)

theorem keepsCounted_create : (create item).KeepsCounted P :=
  keeps_create (keepsCounted_initIndex hitem) (keepsCounted_append hitem 0 _)

theorem keepsCounted_deleteItem : (delete item).KeepsCounted P :=
  keeps_deleteItem (keepsCounted_put hitem _) keepsCounted_teardown

theorem keepsCounted_addAlias (x : ItemId) : (addAlias item x).KeepsCounted P :=
  keeps_addAlias (keepsCounted_put hitem _) (keepsCounted_link x)

theorem keepsCounted_removeAlias (x : ItemId) : (removeAlias item x).KeepsCounted P :=
  keeps_removeAlias (keepsCounted_put hitem _) (keepsCounted_unlink x)

end

end Item
end Chronicle
