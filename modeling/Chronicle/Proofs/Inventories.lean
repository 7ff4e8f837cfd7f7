import Mathlib
import Chronicle.Proofs.DirectoryStore
import Chronicle.Proofs.SlotLists

/-!
# Inventories of indexes

The version, the alias list and the list of views say which keys the index of an item has. Each part
of an operation keeps them in step with the keys, so a teardown, which goes by them, finds every key.
-/
namespace Chronicle.Item

variable {keys other : KeySpace} {s t : Session} {item x : ItemId} {n bound : Nat} {xs : List ItemId}
  {names : List Bytes} {v : Unit}

/-- The item has no key. -/
def Vacant (keys : KeySpace) (item : ItemId) : Prop := ∀ k, keys.stored? (Key.sub item k) = none

/-- What the index says of itself: so many events, these aliases and these views, and all slots are
below the bound and all views among those listed. -/
structure Inventory (keys : KeySpace) (item : ItemId) (n bound : Nat) (xs : List ItemId)
    (names : List Bytes) : Prop where
  version : Item.version keys item = .ok n
  aliases : aliasList keys item = .ok xs
  views : viewList keys item = .ok names
  slot : ∀ m : UInt64, bound ≤ m.toNat → keys.stored? (Key.slot item m) = none
  view : ∀ name ≠ [], name ∉ names → keys.stored? (Key.view item name) = none

theorem Vacant.congr (h : Vacant keys item)
    (hsub : ∀ k, other.stored? (Key.sub item k) = keys.stored? (Key.sub item k)) :
    Vacant other item := fun k => (hsub k).trans (h k)

theorem Vacant.aliasList (h : Vacant keys item) : aliasList keys item = .ok [] :=
  aliasList_of_none (h .aliases)

theorem Vacant.isThere (h : Vacant keys item) : isThere keys item = .ok false :=
  isThere_eq_false_iff.mpr (h .version)

namespace Inventory

theorem congr (h : Inventory keys item n bound xs names)
    (hsub : ∀ k, other.stored? (Key.sub item k) = keys.stored? (Key.sub item k)) :
    Inventory other item n bound xs names where
  version := (version_congr (hsub .version)).trans h.version
  aliases := (aliasList_congr (hsub .aliases)).trans h.aliases
  views := (listAt_congr (hsub (.view []))).trans h.views
  slot m hm := (hsub (.slot m)).trans (h.slot m hm)
  view name hname hnot := (hsub (.view name)).trans (h.view name hname hnot)

theorem isThere (h : Inventory keys item n bound xs names) : isThere keys item = .ok true :=
  (isThere_of_version h.version).1

/-! ## Slots -/

theorem recordSlot {id : EventId} {kind : UInt8} (h : Inventory s.keys item n n xs names)
    (hrun : recordSlot item n id kind s = .ok v t) :
    Inventory t.keys item (n + 1) (n + 1) xs names := by
  refine ⟨(recordSlot_spec hrun).1, ?_, ?_, fun m hm => ?_, fun name hname hnot => ?_⟩
  · exact (aliasList_congr (recordSlot_frame hrun (k := .aliases) nofun nofun)).trans h.aliases
  · exact (listAt_congr (recordSlot_frame hrun (k := .view []) nofun nofun)).trans h.views
  · rw [stored?_slot_recordSlot hrun, if_neg (by omega)]
    exact h.slot m (by omega)
  · exact (recordSlot_frame hrun (k := .view name) nofun nofun).trans (h.view name hname hnot)

theorem of_log (h : Inventory s.keys item n bound xs names) (id : EventId) (stored : Bytes) :
    Inventory (s.keys.insert (Key.log id) stored) item n bound xs names :=
  h.congr fun k => KeySpace.stored?_insert_of_ne _ _ (Key.log_ne_sub id item k)

/-- With the slot of an append comes its version, and there was room for both. -/
theorem append {event : Event} (h : Inventory s.keys item n bound xs names)
    (hbound : bound = n ∨ Bytes.capacity 8 ≤ n + 1) (hrun : append item n event s = .ok v t) :
    Inventory t.keys item (n + 1) (n + 1) xs names := by
  obtain ⟨partition, payload, id, u, -, -, hput, hrecord⟩ := append_eq_ok hrun
  obtain ⟨-, -, -, -, rfl⟩ := Log.put_eq_ok hput
  obtain ⟨hroom, -⟩ := recordSlot_eq_ok hrecord
  obtain rfl := hbound.resolve_right (by omega)
  exact (h.of_log id _).recordSlot (s := ⟨_, s.clock.tick⟩) hrecord

/-- Whatever slot is written, all slots are below the capacity of eight bytes. -/
theorem insert_slot (h : Inventory keys item n bound xs names) (m : UInt64) (stored : Bytes) :
    Inventory (keys.insert (Key.slot item m) stored) item n (Bytes.capacity 8) xs names := by
  have hother : ∀ k, k ≠ .slot m → KeySpace.stored? (keys.insert (Key.slot item m) stored)
      (Key.sub item k) = keys.stored? (Key.sub item k) :=
    fun _ => KeySpace.stored?_insert_sub (k := .slot m)
  refine ⟨?_, ?_, ?_, fun i hi => ?_, fun name hname hnot => ?_⟩
  · exact (version_congr (hother .version nofun)).trans h.version
  · exact (aliasList_congr (hother .aliases nofun)).trans h.aliases
  · exact (listAt_congr (hother (.view []) nofun)).trans h.views
  · exact absurd (Bytes.toNat_lt_capacity_eight i) (not_lt.mpr hi)
  · exact (hother (.view name) nofun).trans (h.view name hname hnot)

/-! ## Aliases -/

theorem setAliases {ys : List ItemId} (h : Inventory s.keys item n bound xs names)
    (hrun : setList (Key.aliases item) ys s = .ok v t) :
    Inventory t.keys item n bound ys names := by
  obtain ⟨haliases, hother⟩ := setAliases_spec hrun
  refine ⟨?_, haliases, ?_, fun m hm => ?_, fun name hname hnot => ?_⟩
  · exact (version_congr (hother .version nofun)).trans h.version
  · exact (listAt_congr (hother (.view []) nofun)).trans h.views
  · exact (hother (.slot m) nofun).trans (h.slot m hm)
  · exact (hother (.view name) nofun).trans (h.view name hname hnot)

theorem link (h : Inventory s.keys item n bound xs names) (hrun : link item x s = .ok v t) :
    Inventory t.keys item n bound (if x ∈ xs then xs else xs ++ [x]) names ∧
      ∀ y, t.keys.stored? (Key.pointer y) =
        if y = x then some (0 :: item.encode) else s.keys.stored? (Key.pointer y) := by
  obtain ⟨-, ys, hlist, hset⟩ := link_eq_ok.mp hrun
  rw [h.aliases, Except.ok.injEq] at hlist
  subst hlist
  refine ⟨?_, pointer_of_link hrun⟩
  exact (h.congr fun k =>
    KeySpace.stored?_insert_of_ne _ _ (Key.pointer_ne_sub item x k)).setAliases hset

theorem unlink (h : Inventory s.keys item n bound xs names) (hrun : unlink item x s = .ok v t) :
    Inventory t.keys item n bound (xs.filter fun y => y ≠ x) names ∧
      ∀ y, t.keys.stored? (Key.pointer y) =
        if y = x then none else s.keys.stored? (Key.pointer y) := by
  obtain ⟨ys, hlist, hset⟩ := unlink_eq_ok.mp hrun
  rw [h.aliases, Except.ok.injEq] at hlist
  subst hlist
  refine ⟨?_, pointer_of_unlink hrun⟩
  exact (h.congr fun k =>
    KeySpace.stored?_erase_of_ne _ (Key.pointer_ne_sub item x k)).setAliases hset

/-! ## Views -/

theorem setCheckpoint {name : Bytes} {c : Checkpoint} (h : Inventory s.keys item n bound xs names)
    (hname : name ≠ []) (hmem : name ∈ names) (hrun : setCheckpoint item name c s = .ok v t) :
    Inventory t.keys item n bound xs names := by
  obtain ⟨bytes, -, rfl⟩ := setCheckpoint_eq_ok hrun
  have hother : ∀ k, k ≠ .view name → KeySpace.stored?
      (s.keys.insert (Key.view item name) (0 :: bytes)) (Key.sub item k) =
        s.keys.stored? (Key.sub item k) := fun _ => KeySpace.stored?_insert_sub (k := .view name)
  refine ⟨?_, ?_, ?_, fun m hm => ?_, fun m hm hnot => ?_⟩
  · exact (version_congr (hother .version nofun)).trans h.version
  · exact (aliasList_congr (hother .aliases nofun)).trans h.aliases
  · exact (listAt_congr (hother (.view []) (by simpa using hname.symm))).trans h.views
  · exact (hother (.slot m) nofun).trans (h.slot m hm)
  · refine (hother (.view m) ?_).trans (h.view m hm hnot)
    rintro ⟨⟩
    exact hnot hmem

theorem registerView {name state : Bytes} {c : Checkpoint}
    (h : Inventory s.keys item n bound xs names) (hname : name ≠ [])
    (hrun : registerView item name state s = .ok c t) :
    Inventory t.keys item n bound xs (names ++ [name]) := by
  obtain ⟨-, bytes, found, listed, -, hfound, hlisted, hkeys⟩ := registerView_eq_ok hname hrun
  rw [h.views, Except.ok.injEq] at hfound
  subst hfound
  have hother : ∀ k, k ≠ .view name → k ≠ .view [] →
      t.keys.stored? (Key.sub item k) = s.keys.stored? (Key.sub item k) := by
    intro k hk hviews
    rw [hkeys]
    exact (KeySpace.stored?_insert_sub (k := .view []) hviews).trans
      (KeySpace.stored?_insert_sub (k := .view name) hk)
  refine ⟨?_, ?_, ?_, fun m hm => ?_, fun m hm hnot => ?_⟩
  · exact (version_congr (hother .version nofun nofun)).trans h.version
  · exact (aliasList_congr (hother .aliases nofun nofun)).trans h.aliases
  · refine viewList_of_some ?_ (recorded_record hlisted)
    rw [hkeys, KeySpace.stored?_insert_self]
  · exact (hother (.slot m) nofun nofun).trans (h.slot m hm)
  · rw [List.mem_append, not_or, List.mem_singleton] at hnot
    refine (hother (.view m) ?_ ?_).trans (h.view m hm hnot.1)
    · simpa using hnot.2
    · simpa using hm

/-- A view with a checkpoint is listed. -/
theorem mem_of_checkpoint? {name : Bytes} {c : Checkpoint}
    (h : Inventory keys item n bound xs names)
    (hfound : checkpoint? keys item name = .ok (some c)) : name ∈ names := by
  by_contra hnot
  have hname := name_ne_nil_of_checkpoint? hfound
  rw [checkpoint?_of_none (h.view name hname hnot) hname h.version] at hfound
  cases hfound

/-- A sync adds its view to the list, unless it is there. -/
theorem syncStarts {σ : Type} {name : Bytes} {view : View σ} {initial : σ} {c : Checkpoint}
    (h : Inventory s.keys item n bound xs names) (hstarts : SyncStarts item name view initial s c t) :
    ∃ names, name ∈ names ∧ Inventory t.keys item n bound xs names := by
  have hname := name_ne_nil_of_starts hstarts
  rcases hstarts with ⟨hfound, rfl⟩ | ⟨-, bytes, -, hregister⟩
  · exact ⟨names, h.mem_of_checkpoint? hfound, h⟩
  · exact ⟨names ++ [name], by simp, h.registerView hname hregister⟩

theorem sync {σ : Type} {name : Bytes} {view : View σ} {initial result : σ}
    (h : Inventory s.keys item n bound xs names) (hrun : sync item name view initial s = .ok result t) :
    ∃ names, Inventory t.keys item n bound xs names := by
  obtain ⟨c, u, hstarts, hsync⟩ := sync_eq_ok.mp hrun
  have hname := name_ne_nil_of_starts hstarts
  obtain ⟨names, hmem, h⟩ := h.syncStarts hstarts
  obtain ⟨_, visited, -, -, hstores⟩ := syncFrom_eq_ok.mp hsync
  cases visited with
  | none =>
    rw [← show u = t from hstores]
    exact ⟨names, h⟩
  | some last =>
    obtain ⟨bytes, -, hset⟩ := hstores
    exact ⟨names, h.setCheckpoint hname hmem hset⟩

/-! ## The end of an index -/

/-- A teardown goes through and finds every key. -/
theorem teardown (h : Inventory s.keys item n n xs names) :
    ∃ t, teardown item s = .ok () t ∧ Vacant t.keys item ∧
      ∀ y, t.keys.stored? (Key.pointer y) =
        if y ∈ xs then none else s.keys.stored? (Key.pointer y) := by
  obtain ⟨t, hrun, hnone, hpointers⟩ :=
    teardown_of_lists h.aliases h.views (version?_of_version h.version)
  refine ⟨t, hrun, fun k => ?_, hpointers⟩
  by_cases htorn : Torn names n k
  · exact hnone k htorn
  · -- a key that it does not name has not been there
    refine (keeps_none_teardown _).of_ok ?_ hrun
    cases k with
    | version | aliases => exact absurd trivial htorn
    | slot m => exact h.slot m (not_lt.mp htorn)
    | view name =>
      obtain ⟨hname, hnot⟩ := not_or.mp htorn
      exact h.view name hname hnot

end Inventory

/-! ## The beginning of an index -/

theorem Vacant.initIndex (h : Vacant s.keys item) (hrun : initIndex item s = .ok v t) :
    Inventory t.keys item 0 0 [] [] := by
  have hversion := version_of_initIndex hrun
  have hstored := stored?_initIndex hrun
  have hnil : ∀ {α : Type} [Packed α] [Packed.LawfulPacked α],
      recorded (List.replicate 8 0) = .ok ([] : List α) := recorded_record record_nil
  refine ⟨hversion, ?_, ?_, fun m _ => ?_, fun name hname _ => ?_⟩
  · rw [aliasList_of_some (hstored .aliases), hnil]
  · exact viewList_of_some (hstored (.view [])) hnil
  · exact (hstored (.slot m)).trans ((if_neg nofun).trans ((if_neg (by simp)).trans (h _)))
  · exact (hstored (.view name)).trans
      ((if_neg nofun).trans ((if_neg (by simpa using hname)).trans (h _)))

end Chronicle.Item
