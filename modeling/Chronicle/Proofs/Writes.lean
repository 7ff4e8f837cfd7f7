import Mathlib
import Chronicle.Proofs.Invariants
import Chronicle.Proofs.RoundTrip

/-!
# Writes

The operations on an item change a session in small writes: a new log entry, a slot that points
at one, another value of an index, an alias pointer, or the removal of a key that is no log key.
What each of these writes preserves, every operation preserves, whether it succeeds or fails.
-/
namespace Chronicle

/-- One write, to a key in `F`. -/
inductive Session.Write (F : Bytes → Prop) : Session → Session → Prop
  | tick (s : Session) : Write F s { s with clock := s.clock.tick }
  | log {s : Session} {id : EventId} (stored : Bytes) (hF : F (Key.log id))
      (hfree : s.keys.stored? (Key.log id) = none) :
      Write F s { s with keys := s.keys.insert (Key.log id) stored }
  | slot {s : Session} {item : ItemId} {n : UInt64} {id : EventId} (mark : UInt8)
      (hF : F (Key.slot item n)) (hlog : s.keys.stored? (Key.log id) ≠ none) :
      Write F s { s with keys := s.keys.insert (Key.slot item n) (mark :: Key.log id) }
  | value {s : Session} {item : ItemId} {k : SubKey} {value : Bytes} (hF : F (Key.sub item k))
      (hlength : value.length ≠ Key.logLength) :
      Write F s { s with keys := s.keys.insert (Key.sub item k) (0 :: value) }
  | point (s : Session) (item : ItemId) {aliasId : ItemId} (hF : F (Key.pointer aliasId)) :
      Write F s { s with keys := s.keys.insert (Key.pointer aliasId) (0 :: item.encode) }
  | erase (s : Session) {key : Bytes} (hF : F key) (hhead : key.head? ≠ some Key.logTag) :
      Write F s { s with keys := s.keys.erase key }

/-- Any number of writes. -/
def Session.Writes (F : Bytes → Prop) : Session → Session → Prop :=
  Relation.ReflTransGen (Session.Write F)

/-! ## Bounded change -/

/-- From `s` to `t` the clock has only moved on, only keys in `P` have changed, and of the log
nothing has been lost. -/
structure Session.Within (P : Bytes → Prop) (s t : Session) : Prop where
  readings : t.clock.readings = s.clock.readings
  taken : s.clock.taken ≤ t.clock.taken
  log : ∀ {id stored}, s.keys.stored? (Key.log id) = some stored →
    t.keys.stored? (Key.log id) = some stored
  frame : ∀ {key}, ¬ P key → t.keys.stored? key = s.keys.stored? key

namespace Session.Within

variable {P Q : Bytes → Prop} {s t u : Session}

theorem refl (s : Session) : s.Within P s := ⟨rfl, le_rfl, fun h => h, fun _ => rfl⟩

theorem trans (hst : s.Within P t) (htu : t.Within P u) : s.Within P u where
  readings := htu.readings.trans hst.readings
  taken := hst.taken.trans htu.taken
  log h := htu.log (hst.log h)
  frame hP := (htu.frame hP).trans (hst.frame hP)

theorem mono (h : s.Within P t) (hPQ : ∀ key, P key → Q key) : s.Within Q t :=
  ⟨h.readings, h.taken, h.log, fun hQ => h.frame fun hP => hQ (hPQ _ hP)⟩

end Session.Within

theorem Session.Within.insert {P : Bytes → Prop} (s : Session) {key : Bytes} (stored : Bytes)
    (hhead : key.head? ≠ some Key.logTag) (hP : P key) :
    s.Within P { s with keys := s.keys.insert key stored } := by
  refine ⟨rfl, le_rfl, fun h => ?_, fun hother => ?_⟩
  · rwa [KeySpace.stored?_insert_of_ne]
    rintro rfl
    exact hhead rfl
  · rw [KeySpace.stored?_insert_of_ne]
    rintro rfl
    exact hother hP

theorem Session.Write.within {F : Bytes → Prop} {s t : Session} (h : s.Write F t) :
    s.Within F t := by
  cases h with
  | tick => exact ⟨rfl, Nat.le_succ _, fun h => h, fun _ => rfl⟩
  | @log id stored hF hfree =>
    refine ⟨rfl, le_rfl, fun {other found} h => ?_, fun {key} hother => ?_⟩
    · rwa [KeySpace.stored?_insert_of_ne]
      intro heq
      rw [← heq, hfree] at h
      cases h
    · rw [KeySpace.stored?_insert_of_ne]
      rintro rfl
      exact hother hF
  | slot mark hF hlog => exact .insert s _ (Key.head?_index_ne _ _ _) hF
  | value hF hlength => exact .insert s _ (Key.head?_index_ne _ _ _) hF
  | point item hF => exact .insert s _ (Key.head?_pointer_ne _) hF
  | @erase key hF hhead =>
    refine ⟨rfl, le_rfl, fun h => ?_, fun hother => ?_⟩
    · rwa [KeySpace.stored?_erase_of_ne]
      rintro rfl
      exact hhead rfl
    · rw [KeySpace.stored?_erase_of_ne]
      rintro rfl
      exact hother hF

theorem Session.Writes.within {F : Bytes → Prop} {s t : Session} (h : s.Writes F t) :
    s.Within F t := by
  induction h with
  | refl => exact .refl s
  | tail _ hlast ih => exact ih.trans hlast.within

theorem Session.Write.mono {F G : Bytes → Prop} {s t : Session} (h : s.Write F t)
    (hFG : ∀ {key}, F key → G key) : s.Write G t := by
  cases h with
  | tick => exact .tick s
  | log stored hF hfree => exact .log stored (hFG hF) hfree
  | slot mark hF hlog => exact .slot mark (hFG hF) hlog
  | value hF hlength => exact .value (hFG hF) hlength
  | point item hF => exact .point s item (hFG hF)
  | erase hF hhead => exact .erase s (hFG hF) hhead

theorem Session.Writes.mono {F G : Bytes → Prop} {s t : Session} (h : s.Writes F t)
    (hFG : ∀ {key}, F key → G key) : s.Writes G t := by
  induction h with
  | refl => exact .refl
  | tail _ hlast ih => exact ih.tail (hlast.mono hFG)

namespace Txn

variable {α : Type} {m : Txn α} {F G : Bytes → Prop} {s₀ s t : Session}

theorem Keeps.writes_leaves (h : ∀ {s : Session}, m.Keeps (s.Writes F)) (s : Session) :
    s.Writes F (m.leaves s) := h s Relation.ReflTransGen.refl

theorem Keeps.writes_of_ok {a : α} (h : ∀ {s : Session}, m.Keeps (s.Writes F)) (hm : m s = .ok a t) :
    s.Writes F t := leaves_of_ok hm ▸ Keeps.writes_leaves h s

theorem Keeps.writes_mono (h : ∀ {s : Session}, m.Keeps (s.Writes F)) (hFG : ∀ {key}, F key → G key) :
    m.Keeps (s₀.Writes G) :=
  fun t ht => ht.trans ((Keeps.writes_leaves h t).mono hFG)

end Txn

variable {F : Bytes → Prop} {s₀ s t : Session} {item : ItemId}

/-! ## Parts of an operation -/

theorem Log.writes_putAt (partition : UInt8) (timestamp : UInt64) (event : LogEvent)
    (hF : ∀ id, F (Key.log id)) : (putAt partition timestamp event).Keeps (s₀.Writes F) := by
  refine (Txn.keeps_query _).bind_of_ok fun {s id t} hs hquery _ => ?_
  obtain ⟨hindex, rfl⟩ := Txn.query_eq_ok.mp hquery
  obtain ⟨-, -, -, hfree, -⟩ := freeIndex_eq_ok (by simp [indexCount]) hindex
  rw [Txn.leaves_bind]
  unfold Txn.set
  split_ifs
  · exact hs
  · exact hs.tail (.log _ (hF id) hfree)

theorem Log.writes_put (partition : UInt8) (event : LogEvent) (hF : ∀ id, F (Key.log id)) :
    (put partition event).Keeps (s₀.Writes F) := by
  have hnow : Txn.now.Keeps (s₀.Writes F) := Txn.keeps_now fun s hs => hs.tail (.tick s)
  refine hnow.bind fun timestamp => ?_
  exact writes_putAt partition timestamp event hF

namespace Item

theorem writes_setVersion (n : Nat) (hF : F (Key.version item)) :
    (setVersion item n).Keeps (s₀.Writes F) := by
  have hlength : (Counter.encode (UInt64.ofNat n)).length ≠ Key.logLength := by
    simp [Counter.encode, Key.logLength]
  refine Txn.keeps_ite (Txn.keeps_set fun s hs => ?_) (Txn.keeps_refuse _)
  exact hs.tail (.value (k := .version) hF hlength)

theorem writes_setList {α : Type} [Packed α] {k : SubKey} {xs : List α} (hF : F (Key.sub item k))
    (hlength : ∀ {bytes}, record xs = .ok bytes → bytes.length ≠ Key.logLength) :
    (setList (Key.sub item k) xs).Keeps (s₀.Writes F) := by
  refine (Txn.keeps_lift _).bind_of_ok fun _ hlift ht => ?_
  obtain ⟨hrecord, -⟩ := Txn.lift_eq_ok.mp hlift
  exact Txn.keeps_set (fun _ hs => hs.tail (.value hF (hlength hrecord))) _ ht

theorem writes_setAliases (xs : List ItemId) (hF : F (Key.aliases item)) :
    (setList (Key.aliases item) xs).Keeps (s₀.Writes F) :=
  writes_setList (k := .aliases) hF length_record_items_ne

theorem writes_setViews (xs : List Bytes) (hF : F (Key.views item)) :
    (setList (Key.views item) xs).Keeps (s₀.Writes F) :=
  writes_setList (k := .view []) hF length_record_names_ne

theorem writes_delete {key : Bytes} (hF : F key) (hhead : key.head? ≠ some Key.logTag) :
    (Txn.delete key).Keeps (s₀.Writes F) :=
  Txn.keeps_delete fun s hs => hs.tail (.erase s hF hhead)

theorem writes_initIndex (hF : ∀ k, F (Key.sub item k)) :
    (initIndex item).Keeps (s₀.Writes F) :=
  keeps_initIndex (writes_setVersion 0 (hF .version)) (writes_setAliases [] (hF .aliases))
    (writes_setViews [] (hF (.view [])))

/-- The event that a slot points at stands in the log before. -/
theorem writes_recordSlot {slot : Nat} {id : EventId} {kind : UInt8}
    (hF : ∀ k, F (Key.sub item k)) (hlog : s₀.keys.stored? (Key.log id) ≠ none) :
    (recordSlot item slot id kind).Keeps (s₀.Writes F) := by
  obtain ⟨stored, hstored⟩ := Option.ne_none_iff_exists'.mp hlog
  have hslot : (Txn.set (Key.slot item (UInt64.ofNat slot)) (Key.log id) kind).Keeps
      (s₀.Writes F) := by
    refine Txn.keeps_set fun s hs => hs.tail (.slot kind (hF (.slot _)) ?_)
    rw [hs.within.log hstored]
    exact Option.some_ne_none _
  refine hslot.bind fun _ => ?_
  exact writes_setVersion (slot + 1) (hF .version)

theorem writes_append {slot : Nat} {event : Event} (hF : ∀ k, F (Key.sub item k))
    (hlog : ∀ id, F (Key.log id)) : (append item slot event).Keeps (s₀.Writes F) := by
  refine (Txn.keeps_lift _).bind fun partition => ?_
  refine (Txn.keeps_lift _).bind fun payload => ?_
  -- the slot may be written since the put has entered what it points at
  refine (Log.writes_put _ _ hlog).bind_of_ok fun {s id t} _ hput ht => ?_
  have hentry : t.keys.stored? (Key.log id) ≠ none := by
    obtain ⟨-, -, -, -, rfl⟩ := Log.put_eq_ok hput
    rw [KeySpace.stored?_insert_self]
    exact Option.some_ne_none _
  have hrecord : (recordSlot item slot id event.kind).Keeps (t.Writes F) :=
    writes_recordSlot hF hentry
  exact ht.trans (hrecord t .refl)

/-- With the pointers that the item's alias list names. -/
theorem writes_teardown (hF : ∀ k, F (Key.sub item k)) (hpointer : ∀ x, F (Key.pointer x)) :
    (teardown item).Keeps (s₀.Writes F) :=
  keeps_teardown (fun k => writes_delete (hF k) (Key.head?_index_ne _ _ _)) fun x =>
    writes_delete (hpointer x) (Key.head?_pointer_ne x)

theorem writes_link {aliasId : ItemId} (hpointer : F (Key.pointer aliasId))
    (haliases : F (Key.aliases item)) : (link item aliasId).Keeps (s₀.Writes F) := by
  refine keeps_link (Txn.keeps_set fun s hs => ?_) fun xs => writes_setAliases xs haliases
  exact hs.tail (.point s item hpointer)

theorem writes_unlink {aliasId : ItemId} (hpointer : F (Key.pointer aliasId))
    (haliases : F (Key.aliases item)) : (unlink item aliasId).Keeps (s₀.Writes F) :=
  keeps_unlink (writes_delete hpointer (Key.head?_pointer_ne _)) fun xs =>
    writes_setAliases xs haliases

theorem writes_setCheckpoint {name : Bytes} (c : Checkpoint) (hF : F (Key.view item name)) :
    (setCheckpoint item name c).Keeps (s₀.Writes F) := by
  refine (Txn.keeps_lift _).bind_of_ok fun _ hlift ht => ?_
  have hlength := length_record_checkpoint_ne (Txn.lift_eq_ok.mp hlift).1
  exact Txn.keeps_set (fun _ hs => hs.tail (.value (k := .view name) hF hlength)) _ ht

theorem writes_registerView {name state : Bytes} (hF : ∀ name, F (Key.view item name)) :
    (registerView item name state).Keeps (s₀.Writes F) :=
  keeps_registerView (fun c => writes_setCheckpoint c (hF name)) fun names =>
    writes_setViews names (hF [])

/-! ## Operations -/

/-- The keys that an operation on the item may change. -/
def Touches (item : ItemId) (key : Bytes) : Prop :=
  (∃ k, key = Key.sub item k) ∨ (∃ aliasId, key = Key.pointer aliasId) ∨ ∃ id, key = Key.log id

theorem touches_sub (k : SubKey) : Touches item (Key.sub item k) := .inl ⟨k, rfl⟩

theorem touches_pointer (aliasId : ItemId) : Touches item (Key.pointer aliasId) :=
  .inr (.inl ⟨aliasId, rfl⟩)

theorem touches_log (id : EventId) : Touches item (Key.log id) := .inr (.inr ⟨id, rfl⟩)

theorem writes_putNext (event : Event) :
    (putNext item event).Keeps (s₀.Writes (Touches item)) :=
  keeps_putNext fun _ => writes_append touches_sub touches_log

theorem writes_put (event : Event) : (put item event).Keeps (s₀.Writes (Touches item)) :=
  keeps_put (writes_putNext event)

theorem writes_create : (create item).Keeps (s₀.Writes (Touches item)) :=
  keeps_create (writes_initIndex touches_sub) (writes_append touches_sub touches_log)

theorem writes_deleteItem : (delete item).Keeps (s₀.Writes (Touches item)) :=
  keeps_deleteItem (writes_put _) (writes_teardown touches_sub touches_pointer)

theorem writes_addAlias (aliasId : ItemId) :
    (addAlias item aliasId).Keeps (s₀.Writes (Touches item)) :=
  keeps_addAlias (writes_put _) (writes_link (touches_pointer aliasId) (touches_sub .aliases))

theorem writes_removeAlias (aliasId : ItemId) :
    (removeAlias item aliasId).Keeps (s₀.Writes (Touches item)) :=
  keeps_removeAlias (writes_put _) (writes_unlink (touches_pointer aliasId) (touches_sub .aliases))

/-- A sync writes views of its item only. -/
theorem writes_sync {σ : Type} (name : Bytes) (v : View σ) (initial : σ)
    (hF : ∀ name, F (Key.view item name)) :
    (sync item name v initial).Keeps (s₀.Writes F) :=
  keeps_sync v initial (fun _ c => writes_setCheckpoint c (hF name)) fun names =>
    writes_setViews names (hF [])

end Item

namespace Registry

theorem writes_ensure : ensure.Keeps (s₀.Writes (Item.Touches registryItem)) :=
  keeps_ensure_of_create Item.writes_create

end Registry
end Chronicle
