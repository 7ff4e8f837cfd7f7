import Mathlib
import Chronicle.Proofs.Endings
import Chronicle.Proofs.Inventories

/-!
# Tidy stores

In a tidy store every index has an inventory, and an alias points only at items that list it. An item
that is not there has then left nothing behind. The operations and the takeover of another store's
log keep a store tidy, also when one of them fails half-way and what it wrote is kept, as long as no
name continues another.
-/
namespace Chronicle

namespace Item

variable {keys other : KeySpace} {s t : Session} {item x : ItemId} {n : Nat}

/-- The item lists the alias, whether it exists or not. -/
def ListsAlias (keys : KeySpace) (item x : ItemId) : Prop :=
  ∃ xs, aliasList keys item = .ok xs ∧ x ∈ xs

theorem ListsAlias.congr (h : ListsAlias keys item x)
    (hkey : other.stored? (Key.aliases item) = keys.stored? (Key.aliases item)) :
    ListsAlias other item x := by
  obtain ⟨xs, hxs, hx⟩ := h
  exact ⟨xs, (aliasList_congr hkey).trans hxs, hx⟩

theorem Vacant.not_listsAlias (h : Vacant keys item) : ¬ ListsAlias keys item x := by
  rintro ⟨xs, hxs, hx⟩
  rw [h.aliasList, Except.ok.injEq] at hxs
  rw [← hxs] at hx
  cases hx

theorem Inventory.mem_of_listsAlias {bound : Nat} {xs : List ItemId} {names : List Bytes}
    (h : Inventory keys item n bound xs names) (hx : ListsAlias keys item x) : x ∈ xs := by
  obtain ⟨ys, hys, hx⟩ := hx
  rw [h.aliases, Except.ok.injEq] at hys
  rwa [hys]

/-- The item has no key, or an inventory of them. A slot beyond the version is there only when the
version has reached its end; no further event then gets a slot. -/
def Kempt (keys : KeySpace) (item : ItemId) : Prop :=
  Vacant keys item ∨ ∃ n bound xs names, Inventory keys item n bound xs names ∧
    (bound = n ∨ Bytes.capacity 8 ≤ n + 1)

theorem Kempt.congr (h : Kempt keys item)
    (hsub : ∀ k, other.stored? (Key.sub item k) = keys.stored? (Key.sub item k)) :
    Kempt other item := by
  rcases h with h | ⟨n, bound, xs, names, h, hbound⟩
  · exact .inl (h.congr hsub)
  · exact .inr ⟨n, bound, xs, names, h.congr hsub, hbound⟩

theorem Kempt.vacant (h : Kempt keys item) (hthere : isThere keys item = .ok false) :
    Vacant keys item := by
  rcases h with h | ⟨n, bound, xs, names, h, -⟩
  · exact h
  · rw [h.isThere] at hthere
    cases hthere

theorem Kempt.inventory (h : Kempt keys item) (hversion : version keys item = .ok n) :
    ∃ bound xs names, Inventory keys item n bound xs names ∧
      (bound = n ∨ Bytes.capacity 8 ≤ n + 1) := by
  rcases h with h | ⟨m, bound, xs, names, h, hbound⟩
  · have hthere := (isThere_of_version hversion).1
    rw [h.isThere] at hthere
    cases hthere
  · obtain rfl : m = n := Except.ok.inj (h.version.symm.trans hversion)
    exact ⟨bound, xs, names, h, hbound⟩

/-- The item has just got a slot: every slot is below the version, and there is room for more keys. -/
structure Open (keys : KeySpace) (item : ItemId) : Prop where
  room : Roomy item
  inventory : ∃ n xs names, Inventory keys item n n xs names

theorem Kempt.recordSlot {id : EventId} {kind : UInt8} {v : Unit} (h : Kempt s.keys item)
    (hversion : version s.keys item = .ok n) (hrun : recordSlot item n id kind s = .ok v t) :
    Open t.keys item := by
  obtain ⟨bound, xs, names, hinventory, hbound⟩ := h.inventory hversion
  have hroom := (recordSlot_eq_ok hrun).1
  obtain rfl := hbound.resolve_right (by omega)
  exact ⟨roomy_of_recordSlot hrun, _, xs, names, hinventory.recordSlot hrun⟩

theorem Kempt.put {event : Event} {slot : Nat} (h : Kempt s.keys item)
    (hrun : put item event s = .ok slot t) : Open t.keys item := by
  obtain ⟨hversion, happend⟩ := putNext_eq_ok.mp (put_eq_ok.mp hrun).2
  obtain ⟨partition, payload, id, u, -, -, hput, hrecord⟩ := append_eq_ok happend
  obtain ⟨-, -, -, -, rfl⟩ := Log.put_eq_ok hput
  have hsub : ∀ k, (s.keys.insert (Key.log id) (event.kind :: payload)).stored? (Key.sub item k) =
      s.keys.stored? (Key.sub item k) :=
    fun k => KeySpace.stored?_insert_of_ne _ _ (Key.log_ne_sub id item k)
  exact (h.congr hsub).recordSlot (s := ⟨_, s.clock.tick⟩)
    ((version_congr (hsub .version)).trans hversion) hrecord

end Item

/-- Every item has no key or an inventory of them, and aliases point only at items that list them. -/
structure Tidy (P : ItemId → Prop) (keys : KeySpace) : Prop where
  index : ∀ item, P item → Item.Kempt keys item
  pointer : ∀ x item, Item.resolve keys x = .ok item → P item ∧ Item.ListsAlias keys item x

theorem Item.resolve_congr {keys other : KeySpace} {x : ItemId}
    (h : other.stored? (Key.pointer x) = keys.stored? (Key.pointer x)) :
    resolve other x = resolve keys x := by
  unfold resolve
  rw [KeySpace.get_congr h]

theorem Item.resolve_of_stored {keys : KeySpace} {item x : ItemId}
    (h : keys.stored? (Key.pointer x) = some (0 :: item.encode)) : resolve keys x = .ok item := by
  have hkey : Key.pointer x ≠ [] := nofun
  have hentry : keys.get (Key.pointer x) = .ok (some ⟨0, item.encode⟩) :=
    KeySpace.get_eq_some hkey h
  unfold resolve
  rw [hentry]
  exact ItemId.decode_encode item

theorem Item.resolve_of_none {keys : KeySpace} {x : ItemId}
    (h : keys.stored? (Key.pointer x) = none) : resolve keys x = .error (.aliasNotFound x) := by
  have hkey : Key.pointer x ≠ [] := nofun
  unfold resolve
  rw [KeySpace.get_eq_none hkey h]
  rfl

namespace Tidy

variable {P : ItemId → Prop} {a b : KeySpace} {s t : Session} {item x : ItemId} {n : Nat}

theorem empty : Tidy P .empty where
  index _ _ := .inl fun _ => KeySpace.stored?_empty _
  pointer x item h := by
    rw [Item.resolve_of_none (KeySpace.stored?_empty _)] at h
    cases h

/-- The log does not matter. -/
theorem congr (h : Tidy P a) (hkeys : ∀ key, Key.OffLog key → b.stored? key = a.stored? key) :
    Tidy P b where
  index item hitem := (h.index item hitem).congr fun k => hkeys _ (Key.offLog_sub item k)
  pointer x item hx := by
    rw [Item.resolve_congr (hkeys _ (Key.offLog_pointer x))] at hx
    obtain ⟨hitem, hlists⟩ := h.pointer x item hx
    exact ⟨hitem, hlists.congr (hkeys _ (Key.offLog_sub item .aliases))⟩

/-- What becomes of the pointers when an item changes: each is gone, or points at the item, which
lists it, or is as before. -/
def Repoints (item : ItemId) (a b : KeySpace) : Prop := ∀ x,
  b.stored? (Key.pointer x) = none ∨
    b.stored? (Key.pointer x) = some (0 :: item.encode) ∧ Item.ListsAlias b item x ∨
    b.stored? (Key.pointer x) = a.stored? (Key.pointer x) ∧
      (Item.ListsAlias a item x → Item.ListsAlias b item x)

/-- A change of one item. -/
theorem step (h : Tidy P a) (hP : Separate P) (hitem : P item)
    (hframe : ∀ key, ¬ Item.Touches item key → b.stored? key = a.stored? key)
    (hindex : Item.Kempt b item) (hpointers : Repoints item a b) : Tidy P b := by
  have hothers : ∀ other, P other → other ≠ item → ∀ k,
      b.stored? (Key.sub other k) = a.stored? (Key.sub other k) := by
    intro other hother hne k
    apply hframe
    rintro (⟨k', hk⟩ | ⟨x, hx⟩ | ⟨id, hid⟩)
    · exact hP item other hitem hother (Ne.symm hne) k' k hk.symm
    · exact Key.sub_ne_pointer other x k hx
    · exact Key.sub_ne_log id other k hid
  constructor
  · intro other hother
    by_cases heq : other = item
    · rwa [heq]
    · exact (h.index other hother).congr (hothers other hother heq)
  · intro x other hx
    rcases hpointers x with hnone | ⟨hself, hlists⟩ | ⟨hsame, hlists⟩
    · rw [Item.resolve_of_none hnone] at hx
      cases hx
    · rw [Item.resolve_of_stored hself, Except.ok.injEq] at hx
      rw [← hx]
      exact ⟨hitem, hlists⟩
    · rw [Item.resolve_congr hsame] at hx
      obtain ⟨hother, hlisted⟩ := h.pointer x other hx
      refine ⟨hother, ?_⟩
      by_cases heq : other = item
      · rw [heq] at hlisted ⊢
        exact hlists hlisted
      · exact hlisted.congr (hothers other hother heq .aliases)

/-- A change of one item that keeps its alias list and all pointers. -/
theorem step_index (h : Tidy P a) (hP : Separate P) (hitem : P item)
    (hframe : ∀ key, (∀ k, k ≠ .aliases → Key.sub item k ≠ key) → b.stored? key = a.stored? key)
    (hindex : Item.Kempt b item) : Tidy P b := by
  have hpointer : ∀ x, b.stored? (Key.pointer x) = a.stored? (Key.pointer x) := fun x =>
    hframe _ fun k _ => Key.sub_ne_pointer item x k
  have haliases : b.stored? (Key.aliases item) = a.stored? (Key.aliases item) :=
    hframe _ fun k hk => Key.sub_ne (y := .aliases) hk
  refine h.step hP hitem (fun key hkey => hframe key fun k _ heq => hkey (.inl ⟨k, heq.symm⟩)) hindex ?_
  exact fun x => .inr (.inr ⟨hpointer x, fun hlists => hlists.congr haliases⟩)

/-- What writes to the log alone. -/
theorem upholds_log {α : Type} {m : Txn α}
    (hwrites : ∀ {s : Session}, m.Keeps (s.Writes fun key => ∃ id, key = Key.log id)) :
    m.Upholds (Tidy P) := by
  intro s t h hends
  refine h.congr fun key hkey => ?_
  rw [← hends.leaves]
  apply (Txn.Keeps.writes_leaves hwrites s).within.frame
  rintro ⟨id, rfl⟩
  exact Key.not_offLog_log id hkey

theorem upholds_replicate_log (e : LogEvent) : (Log.replicate e).Upholds (Tidy P) := by
  intro s t h hends
  rw [← hends.leaves, Txn.leaves_of_ok (Log.replicate_eq e s)]
  refine h.congr fun key hkey => KeySpace.stored?_withLog_of_ne _ fun e' _ heq => ?_
  exact Key.not_offLog_log e'.id (heq ▸ hkey)

section Parts

variable (h : Tidy P s.keys) (hP : Separate P) (hitem : P item)
include h hP hitem

theorem initIndex (hthere : Item.isThere s.keys item = .ok false)
    (hends : (Item.initIndex item).Ends s t) : Tidy P t.keys := by
  rcases hends with ⟨v, hrun⟩ | hfails
  · have hvacant := (h.index item hitem).vacant hthere
    have hwithin := (Txn.Keeps.writes_of_ok (Item.writes_initIndex
      (F := fun key => ∃ k, key = Key.sub item k) fun k => ⟨k, rfl⟩) hrun).within
    have hpointer : ∀ x, t.keys.stored? (Key.pointer x) = s.keys.stored? (Key.pointer x) :=
      fun x => hwithin.frame fun ⟨k, hk⟩ => Key.pointer_ne_sub item x k hk
    refine h.step hP hitem (fun key hkey => hwithin.frame fun hsub => hkey (.inl hsub))
      (.inr ⟨0, 0, [], [], hvacant.initIndex hrun, .inl rfl⟩) fun x => ?_
    exact .inr (.inr ⟨hpointer x, fun hlists => absurd hlists hvacant.not_listsAlias⟩)
  · rwa [Item.fails_initIndex hfails]

theorem recordSlot {id : EventId} {kind : UInt8} (hversion : Item.version s.keys item = .ok n)
    (hends : (Item.recordSlot item n id kind).Ends s t) : Tidy P t.keys := by
  have hindex := h.index item hitem
  rcases hends with ⟨v, hrun⟩ | hfails
  · obtain ⟨-, m, xs, names, hinventory⟩ := hindex.recordSlot hversion hrun
    obtain ⟨-, rfl⟩ := Item.recordSlot_eq_ok hrun
    refine h.step_index hP hitem (fun key hkey => ?_) (.inr ⟨m, m, xs, names, hinventory, .inl rfl⟩)
    exact (KeySpace.stored?_insert_of_ne _ _ (hkey .version nofun)).trans
      (KeySpace.stored?_insert_of_ne _ _ (hkey (.slot _) nofun))
  · rcases Item.fails_recordSlot hfails with rfl | ⟨hfull, hkeys⟩
    · exact h
    · obtain ⟨bound, xs, names, hinventory, -⟩ := hindex.inventory hversion
      have hafter := hinventory.insert_slot (UInt64.ofNat n) (kind :: Key.log id)
      rw [hkeys]
      exact h.step_index hP hitem (fun key hkey =>
        KeySpace.stored?_insert_of_ne _ _ (hkey (.slot _) nofun)) (.inr ⟨n, _, xs, names, hafter, .inr hfull⟩)

/-- A new alias is listed before its pointer can be read. -/
theorem link (hopen : Item.Open s.keys item) (hends : (Item.link item x).Ends s t) :
    Tidy P t.keys := by
  obtain ⟨hroom, n, xs, names, hinventory⟩ := hopen
  rcases hends with ⟨v, hrun⟩ | hfails
  · have hwithin := (Txn.Keeps.writes_of_ok (Item.writes_link
      (Item.touches_pointer x) (Item.touches_sub .aliases)) hrun).within
    obtain ⟨hafter, hpointers⟩ := hinventory.link hrun
    have hlists : ∀ y, y = x ∨ Item.ListsAlias s.keys item y → Item.ListsAlias t.keys item y := by
      intro y hy
      refine ⟨_, hafter.aliases, ?_⟩
      rcases hy with rfl | hy
      · split_ifs with hmem <;> simp [hmem]
      · have hmem := hinventory.mem_of_listsAlias hy
        split_ifs <;> simp [hmem]
    refine h.step hP hitem (fun key => hwithin.frame) (.inr ⟨n, n, _, names, hafter, .inl rfl⟩)
      fun y => ?_
    rw [hpointers]
    split_ifs with hy
    · exact .inr (.inl ⟨rfl, hlists y (.inl hy)⟩)
    · exact .inr (.inr ⟨rfl, fun hbefore => hlists y (.inr hbefore)⟩)
  · rwa [Item.fails_link hroom hinventory.aliases hfails]

theorem unlink (hopen : Item.Open s.keys item) (hends : (Item.unlink item x).Ends s t) :
    Tidy P t.keys := by
  obtain ⟨hroom, n, xs, names, hinventory⟩ := hopen
  rcases hends with ⟨v, hrun⟩ | hfails
  · have hwithin := (Txn.Keeps.writes_of_ok (Item.writes_unlink
      (Item.touches_pointer x) (Item.touches_sub .aliases)) hrun).within
    obtain ⟨hafter, hpointers⟩ := hinventory.unlink hrun
    refine h.step hP hitem (fun key => hwithin.frame) (.inr ⟨n, n, _, names, hafter, .inl rfl⟩)
      fun y => ?_
    rw [hpointers]
    split_ifs with hy
    · exact .inl rfl
    · refine .inr (.inr ⟨rfl, fun hlists => ⟨_, hafter.aliases, List.mem_filter.mpr ⟨?_, ?_⟩⟩⟩)
      · exact hinventory.mem_of_listsAlias hlists
      · simpa using hy
  · exact absurd hfails (Item.not_fails_unlink hroom hinventory.aliases)

theorem teardown (hopen : Item.Open s.keys item) (hends : (Item.teardown item).Ends s t) :
    Tidy P t.keys := by
  obtain ⟨-, n, xs, names, hinventory⟩ := hopen
  obtain ⟨u, hrun, hvacant, hpointers⟩ := hinventory.teardown
  obtain rfl : t = u := by
    rw [← hends.leaves, Txn.leaves_of_ok hrun]
  have hwithin := (Txn.Keeps.writes_of_ok (Item.writes_teardown
    Item.touches_sub Item.touches_pointer) hrun).within
  refine h.step hP hitem (fun key => hwithin.frame) (.inl hvacant) fun y => ?_
  rw [hpointers]
  split_ifs with hy
  · exact .inl rfl
  · exact .inr (.inr ⟨rfl, fun hlists => absurd (hinventory.mem_of_listsAlias hlists) hy⟩)

/-- A change of the views of the item and of their list. -/
theorem views (hwithin : s.Within (fun key => ∃ name, key = Key.view item name) t)
    (hindex : Item.Kempt t.keys item) : Tidy P t.keys :=
  h.step_index hP hitem (fun _ hkey =>
    hwithin.frame fun ⟨name, heq⟩ => hkey (.view name) nofun heq.symm) hindex

theorem sync {σ : Type} {name : Bytes} {view : View σ} {initial : σ}
    (hends : (Item.sync item name view initial).Ends s t) : Tidy P t.keys := by
  have hindex := h.index item hitem
  rcases hends with ⟨result, hrun⟩ | hfails
  · obtain ⟨c, u, hstarts, -⟩ := Item.sync_eq_ok.mp hrun
    obtain ⟨n, hversion⟩ := Item.version_of_starts hstarts
    obtain ⟨bound, xs, names, hinventory, hbound⟩ := hindex.inventory hversion
    obtain ⟨names, hafter⟩ := hinventory.sync hrun
    exact h.views hP hitem (Txn.Keeps.writes_of_ok
      (Item.writes_sync name view initial fun name => ⟨name, rfl⟩) hrun).within
      (.inr ⟨n, bound, xs, names, hafter, hbound⟩)
  · have hlist : ∀ n, Item.version s.keys item = .ok n →
        ∃ names, Item.viewList s.keys item = .ok names := by
      intro n hversion
      obtain ⟨bound, xs, names, hinventory, -⟩ := hindex.inventory hversion
      exact ⟨names, hinventory.views⟩
    rcases Item.fails_sync hlist hfails with rfl | ⟨c, hstarts⟩
    · exact h
    obtain ⟨n, hversion⟩ := Item.version_of_starts hstarts
    obtain ⟨bound, xs, names, hinventory, hbound⟩ := hindex.inventory hversion
    obtain ⟨names, -, hafter⟩ := hinventory.syncStarts hstarts
    rcases hstarts with ⟨-, rfl⟩ | ⟨-, bytes, -, hregister⟩
    · exact h
    · exact h.views hP hitem (Txn.Keeps.writes_of_ok
        (Item.writes_registerView fun name => ⟨name, rfl⟩) hregister).within
        (.inr ⟨n, bound, xs, names, hafter, hbound⟩)

/-! ### Appends -/

theorem append {event : Event} (hversion : Item.version s.keys item = .ok n)
    (hends : (Item.append item n event).Ends s t) : Tidy P t.keys := by
  rcases Txn.ends_bind hends with hfails | ⟨partition, u, hlift, hends⟩
  · rwa [Txn.fails_lift hfails]
  obtain ⟨-, rfl⟩ := Txn.lift_eq_ok.mp hlift
  rcases Txn.ends_bind hends with hfails | ⟨payload, u, hlift, hends⟩
  · rwa [Txn.fails_lift hfails]
  obtain ⟨-, rfl⟩ := Txn.lift_eq_ok.mp hlift
  have hput := upholds_log (P := P) (Log.writes_put (F := fun key => ∃ id, key = Key.log id) partition
    (.new event.kind payload) fun id => ⟨id, rfl⟩)
  rcases Txn.ends_bind hends with hfails | ⟨id, u, hlog, hends⟩
  · exact hput h (.inr hfails)
  refine (hput h (.inl ⟨id, hlog⟩)).recordSlot hP hitem ?_ hends
  obtain ⟨-, -, -, -, rfl⟩ := Log.put_eq_ok hlog
  rw [← hversion]
  exact Item.version_congr (KeySpace.stored?_insert_of_ne _ _ (Key.log_ne_sub id item .version))

end Parts

/-! ### Operations -/

/-- What is refused for an item that is there starts from one that is not. -/
theorem upholds_new {fault : Fault} {f : PUnit → Txn Unit}
    (hf : ∀ {s t}, Tidy P s.keys → Item.isThere s.keys item = .ok false → (f ⟨⟩).Ends s t →
      Tidy P t.keys) :
    (Txn.query (fun keys => Item.isThere keys item) >>= fun there =>
      if there then Txn.refuse fault >>= f else f ⟨⟩).Upholds (Tidy P) :=
  (Txn.upholds_query _).bind_of_ok fun _ hquery h hends => by
    obtain ⟨hthere, rfl⟩ := Txn.query_eq_ok.mp hquery
    rcases Txn.ends_refuse_if hends with rfl | ⟨hnot, hends⟩
    · exact h
    · rw [Bool.not_eq_true] at hnot
      exact hf h (hnot ▸ hthere) hends

variable (hP : Separate P) (hitem : P item)
include hP hitem

theorem upholds_putNext (event : Event) : (Item.putNext item event).Upholds (Tidy P) :=
  (Txn.upholds_query _).bind_of_ok fun _ hquery h hends => by
    obtain ⟨hversion, rfl⟩ := Txn.query_eq_ok.mp hquery
    rcases Txn.ends_bind hends with hfails | ⟨_, w, happend, hends⟩
    · exact h.append hP hitem hversion (.inr hfails)
    · exact Txn.upholds_pure _ (h.append hP hitem hversion (.inl ⟨_, happend⟩)) hends

theorem upholds_put (event : Event) : (Item.put item event).Upholds (Tidy P) :=
  Txn.upholds_ite (Txn.upholds_refuse _) (upholds_putNext hP hitem event)

/-- An event and what it does to the index beside its slot. -/
theorem upholds_put_bind (event : Event) {f : Txn Unit}
    (hf : ∀ {s t}, Tidy P s.keys → Item.Open s.keys item → f.Ends s t → Tidy P t.keys) :
    (do let _ ← Item.put item event; f).Upholds (Tidy P) :=
  (upholds_put hP hitem event).bind_of_ok fun h hput hafter hends =>
    hf hafter ((h.index item hitem).put hput) hends

theorem upholds_create : (Item.create item).Upholds (Tidy P) := upholds_new fun h hthere hends => by
  rcases Txn.ends_bind hends with hfails | ⟨_, u, hlift, hends⟩
  · rwa [Txn.fails_lift hfails]
  obtain ⟨-, rfl⟩ := Txn.lift_eq_ok.mp hlift
  rcases Txn.ends_bind hends with hfails | ⟨_, u, hinit, hends⟩
  · exact h.initIndex hP hitem hthere (.inr hfails)
  · exact (h.initIndex hP hitem hthere (.inl ⟨_, hinit⟩)).append hP hitem
      (Item.version_of_initIndex hinit) hends

theorem upholds_delete : (Item.delete item).Upholds (Tidy P) :=
  upholds_put_bind hP hitem _ fun h hopen hends => h.teardown hP hitem hopen hends

theorem upholds_addAlias : (Item.addAlias item x).Upholds (Tidy P) := by
  refine (Txn.upholds_query _).bind fun taken => Txn.upholds_refuse_if ?_
  exact upholds_put_bind hP hitem _ fun h hopen hends => h.link hP hitem hopen hends

theorem upholds_removeAlias : (Item.removeAlias item x).Upholds (Tidy P) := by
  refine (Txn.upholds_query _).bind fun target => Txn.upholds_refuse_if ?_
  exact upholds_put_bind hP hitem _ fun h hopen hends => h.unlink hP hitem hopen hends

theorem upholds_sync {σ : Type} (name : Bytes) (view : View σ) (initial : σ) :
    (Item.sync item name view initial).Upholds (Tidy P) := fun _ _ h hends => h.sync hP hitem hends

/-! ### Takeovers -/

theorem upholds_startIndex (event : Event) : (Item.startIndex item event).Upholds (Tidy P) := by
  refine Txn.upholds_ite (upholds_new fun h hthere hends => ?_) (Txn.upholds_pure _)
  exact h.initIndex hP hitem hthere hends

theorem settle {event : Event} (h : Tidy P s.keys) (hopen : Item.Open s.keys item)
    (hends : (Item.settle item event).Ends s t) : Tidy P t.keys := by
  have htarget : ∀ {f : ItemId → Txn Unit}, (∀ x, (f x).Ends s t → Tidy P t.keys) →
      (Txn.lift event.aliasTarget >>= f).Ends s t → Tidy P t.keys := by
    intro f hf hends
    rcases Txn.ends_bind hends with hfails | ⟨x, u, hlift, hends⟩
    · rwa [Txn.fails_lift hfails]
    · obtain ⟨-, rfl⟩ := Txn.lift_eq_ok.mp hlift
      exact hf x hends
  unfold Item.settle at hends
  split_ifs at hends
  · exact h.teardown hP hitem hopen hends
  · exact htarget (fun x => h.link hP hitem hopen) hends
  · exact htarget (fun x => h.unlink hP hitem hopen) hends
  · exact Txn.upholds_pure _ h hends

end Tidy

/-! ## Reachable stores -/

section

variable {P : ItemId → Prop} (hP : Separate P)
include hP

theorem Item.upholds_replicate {entry : LogEvent}
    (hitem : ∀ found, entry.itemEvent = .ok found → P found.item) :
    (replicate entry).Upholds (Tidy P) := by
  rw [replicate_eq]
  refine (Txn.upholds_lift _).bind_of_ok fun _ hlift h hends => ?_
  have hitem := hitem _ (Txn.lift_eq_ok.mp hlift).1
  refine (Tidy.upholds_startIndex hP hitem _).bind (fun _ => ?_) h hends
  refine (Txn.upholds_query _).bind_of_ok fun _ hquery h hends => ?_
  obtain ⟨hversion, rfl⟩ := Txn.query_eq_ok.mp hquery
  rcases Txn.ends_bind hends with hfails | ⟨_, u, hrecord, hends⟩
  · exact h.recordSlot hP hitem hversion (.inr hfails)
  · exact (h.recordSlot hP hitem hversion (.inl ⟨_, hrecord⟩)).settle hP hitem
      ((h.index _ hitem).recordSlot hversion hrecord) hends

theorem Replication.upholds_apply {events : List LogEvent} (hitems : ∀ e ∈ events,
    Kind.isItem e.mark = true → ∀ found, e.itemEvent = .ok found → P found.item) :
    (apply events).Upholds (Tidy P) := by
  refine (Txn.upholds_forM fun e _ => Tidy.upholds_replicate_log e).bind fun _ => ?_
  refine (Txn.upholds_forM fun e he => ?_).bind fun _ => Txn.upholds_pure events.length
  obtain ⟨he, hkind⟩ := List.mem_filter.mp he
  exact Item.upholds_replicate hP (hitems e he hkind)

namespace Registry

variable (hitem : P registryItem)
include hitem

theorem upholds_ensure : ensure.Upholds (Tidy P) :=
  (Txn.upholds_query _).bind fun _ => Txn.upholds_ite (Txn.upholds_pure _)
    (Tidy.upholds_create hP hitem)

theorem upholds_prepare : prepare.Upholds (Tidy P) :=
  (upholds_ensure hP hitem).bind fun _ => Txn.upholds_query _

theorem upholds_append (change : Change) : (append change).Upholds (Tidy P) :=
  (Txn.upholds_lift _).bind fun event => Tidy.upholds_putNext hP hitem event

end Registry

theorem Mutation.upholds (m : Mutation) (hitem : P registryItem) : m.run.Upholds (Tidy P) := by
  have hprepare := Registry.upholds_prepare hP hitem
  have happend := Registry.upholds_append hP hitem
  cases m with
  | createEntityType name =>
    refine hprepare.bind fun r => ?_
    exact Txn.upholds_refuse_if (happend _)
  | createEventType entity name schema =>
    refine hprepare.bind fun r => ?_
    refine (Txn.upholds_lift _).bind fun e => ?_
    exact Txn.upholds_refuse_if (happend _)
  | updateEventType entity name schema =>
    refine hprepare.bind fun r => ?_
    refine (Txn.upholds_lift _).bind fun e => ?_
    refine (happend _).bind fun n => ?_
    exact Txn.upholds_pure _
  | deleteEntityType | deleteEventType =>
    refine hprepare.bind fun r => ?_
    refine (Txn.upholds_lift _).bind fun e => ?_
    exact happend _

theorem Op.upholds (op : Op) (hitem : ∀ item, op.item? = some item → P item) :
    op.run.Upholds (Tidy P) := by
  cases op with
  | create item => exact (Tidy.upholds_create hP (hitem item rfl)).map
  | put item event => exact (Tidy.upholds_put hP (hitem item rfl) event).map
  | addAlias item x => exact (Tidy.upholds_addAlias hP (hitem item rfl)).map
  | removeAlias item x => exact (Tidy.upholds_removeAlias hP (hitem item rfl)).map
  | delete item => exact (Tidy.upholds_delete hP (hitem item rfl)).map
  | sync item name view initial =>
    exact (Tidy.upholds_sync hP (hitem item rfl) name view initial).map
  | ensure => exact (Registry.upholds_ensure hP (hitem registryItem rfl)).map
  | mutate m => exact (m.upholds hP (hitem registryItem rfl)).map
  | log partition event =>
    exact (Tidy.upholds_log (Log.writes_put partition event fun id => ⟨id, rfl⟩)).map
  | logAt partition timestamp event =>
    exact (Tidy.upholds_log (Log.writes_putAt partition timestamp event fun id => ⟨id, rfl⟩)).map

end

theorem separate_of_not_continues {P : ItemId → Prop}
    (h : ∀ a b, P a → P b → ¬ a.Continues b) : Separate P := fun a b ha hb hne =>
  ItemId.apart_of_not_continues hne (h b a hb ha) (h a b ha hb)

/-- What a store can hold after any operations on these items and takeovers of their events, with any
clocks. What fails may leave its writes behind: the caller of a transaction is free to go on after a
fault. -/
inductive ReachableBy (P : ItemId → Prop) : KeySpace → Prop
  | empty : ReachableBy P .empty
  | run {s t : Session} {op : Op} (h : ReachableBy P s.keys)
      (hitem : ∀ item, op.item? = some item → P item) (hends : op.run.Ends s t) :
      ReachableBy P t.keys
  | logged {s t : Session} {e : LogEvent} (h : ReachableBy P s.keys)
      (hends : (Log.replicate e).Ends s t) : ReachableBy P t.keys
  | applied {s t : Session} {events : List LogEvent} (h : ReachableBy P s.keys)
      (hitems : ∀ e ∈ events, Kind.isItem e.mark = true → ∀ found, e.itemEvent = .ok found →
        P found.item) (hends : (Replication.apply events).Ends s t) : ReachableBy P t.keys
  | indexed {s t : Session} {e : LogEvent} (h : ReachableBy P s.keys)
      (hitem : ∀ found, e.itemEvent = .ok found → P found.item)
      (hends : (Item.replicate e).Ends s t) : ReachableBy P t.keys

theorem tidy_of_reachableBy {P : ItemId → Prop} {keys : KeySpace} (hP : Separate P)
    (h : ReachableBy P keys) : Tidy P keys := by
  induction h with
  | empty => exact .empty
  | run h hitem hends ih => exact Op.upholds hP _ hitem ih hends
  | logged h hends ih => exact Tidy.upholds_replicate_log _ ih hends
  | applied h hitems hends ih => exact Replication.upholds_apply hP hitems ih hends
  | indexed h hitem hends ih => exact Item.upholds_replicate hP hitem ih hends

/-- The runs are among them. -/
theorem Run.Reached.reachableBy {P : ItemId → Prop} {clock : Clock} {trace : List Step} {s : Session}
    (h : Run.Reached clock trace s)
    (hitems : ∀ step ∈ trace, ∀ item, step.op.item? = some item → P item) :
    ReachableBy P s.keys := by
  induction h with
  | start => exact .empty
  | abort h hkeys hreadings htaken ih =>
    rw [hkeys]
    exact ih hitems
  | step h hready hop ih =>
    refine .run (ih fun step hstep => hitems step (List.mem_append_left _ hstep)) ?_ (.inl ⟨_, hop⟩)
    exact hitems _ (List.mem_append_right _ List.mem_cons_self)

end Chronicle
