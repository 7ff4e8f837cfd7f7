import Mathlib
import Chronicle.Proofs.Isolation
import Chronicle.Proofs.Tidiness

/-!
# Lives of items

An item is created, gets events, aliases and views, and is deleted. Afterwards every key outside the
log is as it was before, and when the item is created again its index is like that of an item which
has never been there.
-/
namespace Chronicle

/-! ## From creation to deletion -/

/-- An operation on the item between its creation and its deletion. -/
def Op.Serves (item : ItemId) : Op → Prop
  | put a _ | addAlias a _ | removeAlias a _ | sync a _ _ _ => a = item
  | _ => False

/-- Each operation in a transaction of its own, which is aborted if the operation fails. -/
def Session.updates (s : Session) (ops : List Op) : Session :=
  ops.foldl (fun s op => (s.update op.run).2) s

namespace Item

variable {keys : KeySpace} {s₀ s t : Session} {item x : ItemId} {n : Nat} {xs : List ItemId}
  {names : List Bytes}

theorem pointer_of_append {slot : Nat} {event : Event} {v : Unit}
    (hrun : append item slot event s = .ok v t) :
    t.keys.stored? (Key.pointer x) = s.keys.stored? (Key.pointer x) := by
  have hwithin := (Txn.Keeps.writes_of_ok (writes_append
    (F := fun key => (∃ k, key = Key.sub item k) ∨ ∃ id, key = Key.log id)
    (fun k => .inl ⟨k, rfl⟩) fun id => .inr ⟨id, rfl⟩) hrun).within
  apply hwithin.frame
  rintro (⟨k, hk⟩ | ⟨id, hid⟩)
  · exact Key.pointer_ne_sub item x k hk
  · exact Key.pointer_ne_log id x hid

theorem pointer_of_initIndex {v : Unit} (hrun : initIndex item s = .ok v t) :
    t.keys.stored? (Key.pointer x) = s.keys.stored? (Key.pointer x) := by
  have hwithin := (Txn.Keeps.writes_of_ok (writes_initIndex
    (F := fun key => ∃ k, key = Key.sub item k) fun k => ⟨k, rfl⟩) hrun).within
  exact hwithin.frame fun ⟨k, hk⟩ => Key.pointer_ne_sub item x k hk

theorem Inventory.put {event : Event} {slot : Nat} (h : Inventory s.keys item n n xs names)
    (hrun : put item event s = .ok slot t) : Inventory t.keys item (n + 1) (n + 1) xs names := by
  obtain ⟨hversion, happend⟩ := putNext_eq_ok.mp (put_eq_ok.mp hrun).2
  obtain rfl : n = slot := Except.ok.inj (h.version.symm.trans hversion)
  exact h.append (.inl rfl) happend

/-- The item lives in a store that is otherwise, outside the log, as it was before the item: pointers
of its aliases are new. -/
structure Lives (before : KeySpace) (item : ItemId) (keys : KeySpace) (n : Nat) (xs : List ItemId)
    (names : List Bytes) : Prop where
  inventory : Inventory keys item n n xs names
  frame : ∀ key, ¬ Touches item key → keys.stored? key = before.stored? key
  pointer : ∀ x, keys.stored? (Key.pointer x) =
    if x ∈ xs then some (0 :: item.encode) else before.stored? (Key.pointer x)
  free : ∀ x ∈ xs, before.stored? (Key.pointer x) = none

namespace Lives

variable {before : KeySpace}

theorem create {v : Unit} (hvacant : Vacant s.keys item) (hrun : create item s = .ok v t) :
    Lives s.keys item t.keys 1 [] [] := by
  have hwithin := (Txn.Keeps.writes_of_ok writes_create hrun).within
  obtain ⟨u, -, hinit, happend⟩ := create_eq_ok hrun
  refine ⟨(hvacant.initIndex hinit).append (.inl rfl) happend, fun key => hwithin.frame, fun x => ?_,
    fun x hx => absurd hx List.not_mem_nil⟩
  exact (pointer_of_append happend).trans (pointer_of_initIndex hinit)

theorem put {event : Event} {slot : Nat} (h : Lives before item s.keys n xs names)
    (hrun : put item event s = .ok slot t) : Lives before item t.keys (n + 1) xs names where
  inventory := h.inventory.put hrun
  frame key hkey := ((Txn.Keeps.writes_of_ok (writes_put event) hrun).within.frame hkey).trans
    (h.frame key hkey)
  pointer x := (pointer_of_append (putNext_eq_ok.mp (put_eq_ok.mp hrun).2).2).trans (h.pointer x)
  free := h.free

theorem link {v : Unit} (h : Lives before item s.keys n xs names)
    (hfree : s.keys.stored? (Key.pointer x) = none) (hrun : link item x s = .ok v t) :
    Lives before item t.keys n (xs ++ [x]) names := by
  have hwithin := (Txn.Keeps.writes_of_ok
    (writes_link (touches_pointer x) (touches_sub .aliases)) hrun).within
  obtain ⟨hinventory, hpointers⟩ := h.inventory.link hrun
  rw [h.pointer] at hfree
  split_ifs at hfree with hx
  rw [if_neg hx] at hinventory
  refine ⟨hinventory, fun key hkey => (hwithin.frame hkey).trans (h.frame key hkey), fun y => ?_,
    fun y hy => ?_⟩
  · rw [hpointers, h.pointer]
    by_cases hy : y = x <;> simp [hy]
  · rcases List.mem_append.mp hy with hy | hy
    · exact h.free y hy
    · rw [List.mem_singleton.mp hy]
      exact hfree

theorem unlink {v : Unit} (h : Lives before item s.keys n xs names) (hx : x ∈ xs)
    (hrun : unlink item x s = .ok v t) :
    Lives before item t.keys n (xs.filter fun y => y ≠ x) names := by
  have hwithin := (Txn.Keeps.writes_of_ok
    (writes_unlink (touches_pointer x) (touches_sub .aliases)) hrun).within
  obtain ⟨hinventory, hpointers⟩ := h.inventory.unlink hrun
  refine ⟨hinventory, fun key hkey => (hwithin.frame hkey).trans (h.frame key hkey), fun y => ?_,
    fun y hy => h.free y (List.mem_filter.mp hy).1⟩
  rw [hpointers, h.pointer]
  by_cases hy : y = x
  · simp [hy, h.free x hx]
  · simp [hy]

theorem sync {σ : Type} {name : Bytes} {view : View σ} {initial result : σ}
    (h : Lives before item s.keys n xs names) (hrun : sync item name view initial s = .ok result t) :
    ∃ names, Lives before item t.keys n xs names := by
  have hwithin := (Txn.Keeps.writes_of_ok (writes_sync
    (F := fun key => ∃ name, key = Key.view item name) name view initial fun name => ⟨name, rfl⟩)
    hrun).within
  obtain ⟨names, hinventory⟩ := h.inventory.sync hrun
  refine ⟨names, hinventory, fun key hkey => ?_, fun y => ?_, h.free⟩
  · refine (hwithin.frame ?_).trans (h.frame key hkey)
    rintro ⟨name, rfl⟩
    exact hkey (touches_sub (.view name))
  · refine (hwithin.frame ?_).trans (h.pointer y)
    rintro ⟨name, hname⟩
    exact Key.pointer_ne_sub item y (.view name) hname

/-- The alias that is removed is one that the item has got in its life. -/
theorem mem_of_resolve (h : Lives before item keys n xs names)
    (hnone : resolve before x ≠ .ok item) (hx : resolve keys x = .ok item) : x ∈ xs := by
  by_contra hnot
  refine hnone ((resolve_congr ?_).trans hx)
  rw [h.pointer, if_neg hnot]

/-- The item goes and takes its aliases with it. -/
theorem delete {v : Unit} (h : Lives before item s.keys n xs names)
    (hvacant : Vacant before item) (hrun : delete item s = .ok v t) {key : Bytes}
    (hkey : ∀ id, key ≠ Key.log id) : t.keys.stored? key = before.stored? key := by
  obtain ⟨slot, u, hput, hteardown⟩ := delete_eq_ok hrun
  have h := h.put hput
  obtain ⟨w, hrun', hgone, hpointers⟩ := h.inventory.teardown
  rw [hteardown, EStateM.Result.ok.injEq] at hrun'
  rw [← hrun'.2] at hgone hpointers
  by_cases htouches : Touches item key
  · rcases htouches with ⟨k, rfl⟩ | ⟨x, rfl⟩ | ⟨id, rfl⟩
    · rw [hgone, hvacant]
    · rw [hpointers, h.pointer]
      split_ifs with hx
      · exact (h.free x hx).symm
      · rfl
    · exact absurd rfl (hkey id)
  · have hwithin := (Txn.Keeps.writes_of_ok (writes_teardown touches_sub touches_pointer)
      hteardown).within
    exact (hwithin.frame htouches).trans (h.frame key htouches)

end Lives

end Item

open Item (Lives Vacant)

/-- An operation that serves the item lets it live on, whether it is committed or aborted. -/
theorem Item.Lives.update {before : KeySpace} {s : Session} {item : ItemId} {op : Op}
    (h : ∃ n xs names, Lives before item s.keys n xs names)
    (hnone : ∀ x, resolve before x ≠ .ok item) (hop : op.Serves item) :
    ∃ n xs names, Lives before item (s.update op.run).2.keys n xs names := by
  obtain ⟨n, xs, names, h⟩ := h
  rcases hupdate : s.update op.run with ⟨fault | reply, t⟩
  · rw [Txn.keys_of_update_error hupdate]
    exact ⟨n, xs, names, h⟩
  · have hrun := Txn.update_eq_ok.mp hupdate
    have hready : op.Ready s.keys := by cases op <;> trivial
    cases op.done hready rfl hrun with
    | put hput =>
      obtain rfl := hop
      exact ⟨n + 1, xs, names, h.put hput⟩
    | @addAlias _ x hadd =>
      obtain rfl := hop
      obtain ⟨slot, u, hput, hlink⟩ := addAlias_eq_ok hadd
      have hput' := (putNext_eq_ok.mp (put_eq_ok.mp hput).2).2
      have hfree := (pointer_of_append hput').trans (addAlias_free hadd)
      exact ⟨n + 1, xs ++ [x], names, (h.put hput).link hfree hlink⟩
    | @removeAlias _ x hremove =>
      obtain rfl := hop
      obtain ⟨slot, u, hresolve, hput, hunlink⟩ := removeAlias_eq_ok hremove
      have hx := h.mem_of_resolve (hnone x) hresolve
      exact ⟨n + 1, _, names, (h.put hput).unlink hx hunlink⟩
    | sync hsync =>
      obtain rfl := hop
      obtain ⟨names, hafter⟩ := h.sync hsync
      exact ⟨n, xs, names, hafter⟩
    | create | delete | found | ensure | mutate | log | logAt => exact hop.elim

theorem Item.Lives.updates {before : KeySpace} {s : Session} {item : ItemId} {ops : List Op}
    (h : ∃ n xs names, Lives before item s.keys n xs names)
    (hnone : ∀ x, resolve before x ≠ .ok item) (hops : ∀ op ∈ ops, op.Serves item) :
    ∃ n xs names, Lives before item (s.updates ops).keys n xs names := by
  induction ops generalizing s with
  | nil => exact h
  | cons op ops ih =>
    exact ih (Item.Lives.update h hnone (hops op List.mem_cons_self)) fun op hop =>
      hops op (List.mem_cons_of_mem _ hop)

/-! ## A new life -/

/-- What stands under a key of an item that has been created and has had no event since. -/
def SubKey.newborn (id : EventId) : SubKey → Option Bytes
  | version => some (0 :: Counter.encode 1)
  | aliases => some (0 :: List.replicate 8 0)
  | slot n => if n = 0 then some (Kind.system :: Key.log id) else none
  | view name => if name = [] then some (0 :: List.replicate 8 0) else none

/-- The index of an item that has been created and has had no event since, but for where its event
stands in the log. -/
structure Item.Newborn (keys : KeySpace) (item : ItemId) (id : EventId) : Prop where
  stored : ∀ k, keys.stored? (Key.sub item k) = k.newborn id
  version : Item.version keys item = .ok 1
  aliases : Item.aliases keys item = .ok []
  viewNames : Item.viewNames keys item = .ok []
  events : Item.load keys item 0 0 =
    .ok ⟨item, 0, some 0, [{ Event.lifecycle .created [] with id := id }]⟩

/-- With an item, the event of whose creation is in the log. -/
def KeySpace.withItem (keys : KeySpace) (item : ItemId) (id : EventId) (payload : Bytes) : KeySpace :=
  ((keys.withIndex item).insert (Key.log id) (Kind.system :: payload)).withSlot item 0 id Kind.system

theorem Log.freeIndex_congr {a b : KeySpace} (h : Same a b) (p : UInt8) (time : UInt64)
    (count index : Nat) : freeIndex b p time count index = freeIndex a p time count index := by
  induction count generalizing index with
  | zero => rfl
  | succ count ih =>
    rw [freeIndex, freeIndex, KeySpace.contains_congr (h ⟨p, time, UInt16.ofNat index⟩)]
    congr 1
    funext taken
    cases taken with
    | true => exact ih (index + 1)
    | false => rfl

/-- An append at the time of the clock needs a free index. -/
theorem Log.put_of_free {s : Session} {p : UInt8} {event : LogEvent} {id : EventId}
    (hlimit : s.clock.reading ≤ Clock.limit)
    (hfree : freeIndex s.keys p (UInt64.ofNat s.clock.reading) indexCount 0 = .ok id) :
    put p event s =
      .ok id ⟨s.keys.insert (Key.log id) (event.mark :: event.payload), s.clock.tick⟩ := by
  have hlength : (Key.log id).length ≤ Txn.keyLimit := by
    rw [Key.length_log]
    decide
  refine Txn.bind_eq_ok.mpr ⟨_, _, Txn.now_eq_ok.mpr ⟨hlimit, rfl, rfl⟩, ?_⟩
  refine Txn.bind_eq_ok.mpr ⟨id, _, Txn.query_eq_ok.mpr ⟨hfree, rfl⟩, ?_⟩
  exact Txn.bind_eq_ok.mpr ⟨(), _, Txn.set_eq_ok.mpr ⟨⟨Key.log_ne_nil _, hlength⟩, rfl⟩, rfl⟩

namespace Item

variable {keys : KeySpace} {s t : Session} {item : ItemId} {p : UInt8} {payload : Bytes} {id : EventId}

theorem create_of_vacant (hvacant : Vacant s.keys item) (hroom : Roomy item)
    (hpartition : item.partition = .ok p)
    (hpayload : (Envelope.wrap item (Event.lifecycle .created [])).encode = .ok payload)
    (hlimit : s.clock.reading ≤ Clock.limit)
    (hfree : Log.freeIndex s.keys p (UInt64.ofNat s.clock.reading) Log.indexCount 0 = .ok id) :
    create item s = .ok () ⟨s.keys.withItem item id payload, s.clock.tick⟩ := by
  have hinit := initIndex_of_length (s := s) hroom
  have hsame : Log.Same s.keys (s.keys.withIndex item) := fun other =>
    (Txn.Keeps.writes_of_ok (writes_initIndex (F := fun key => ∃ k, key = Key.sub item k)
      fun k => ⟨k, rfl⟩) hinit).within.frame fun ⟨k, hk⟩ => Key.log_ne_sub other item k hk
  rw [← Log.freeIndex_congr hsame] at hfree
  refine Txn.bind_eq_ok.mpr ⟨false, s, Txn.query_eq_ok.mpr ⟨hvacant.isThere, rfl⟩, ?_⟩
  refine Txn.bind_eq_ok.mpr ⟨p, s, Txn.lift_eq_ok.mpr ⟨hpartition, rfl⟩, ?_⟩
  refine Txn.bind_eq_ok.mpr ⟨(), _, hinit, ?_⟩
  refine Txn.bind_eq_ok.mpr ⟨p, _, Txn.lift_eq_ok.mpr ⟨hpartition, rfl⟩, ?_⟩
  refine Txn.bind_eq_ok.mpr ⟨payload, _, Txn.lift_eq_ok.mpr ⟨hpayload, rfl⟩, ?_⟩
  refine Txn.bind_eq_ok.mpr ⟨id, _, Log.put_of_free hlimit hfree, ?_⟩
  exact recordSlot_of_length hroom (by decide) id Kind.system

theorem keys_of_create {v : Unit} (hrun : create item s = .ok v t) : ∃ id payload,
    (Envelope.wrap item (Event.lifecycle .created [])).encode = .ok payload ∧
      t.keys = s.keys.withItem item id payload := by
  obtain ⟨u, -, hinit, happend⟩ := create_eq_ok hrun
  obtain ⟨partition, payload, id, w, -, hpayload, hput, hrecord⟩ := append_eq_ok happend
  obtain ⟨-, -, -, -, rfl⟩ := Log.put_eq_ok hput
  obtain ⟨-, rfl⟩ := recordSlot_eq_ok hrecord
  refine ⟨id, payload, hpayload, ?_⟩
  rw [keys_of_initIndex hinit]
  rfl

theorem stored?_withItem (hvacant : Vacant keys item) (k : SubKey) :
    (keys.withItem item id payload).stored? (Key.sub item k) = k.newborn id := by
  change KeySpace.stored? ((((((keys.insert (Key.sub item .version) _).insert
    (Key.sub item .aliases) _).insert (Key.sub item (.view [])) _).insert (Key.log id) _).insert
    (Key.sub item (.slot 0)) _).insert (Key.sub item .version) _) _ = _
  have hlog : ∀ k, Key.log id ≠ Key.sub item k := Key.log_ne_sub id item
  simp only [KeySpace.stored?_insert, Key.sub_inj, hlog, if_false]
  cases k with
  | version => rfl
  | aliases => rfl
  | slot n => simp [SubKey.newborn, hvacant (.slot n), eq_comm]
  | view name => simp [SubKey.newborn, hvacant (.view name), eq_comm]

theorem newborn_of_create {v : Unit} (hvacant : Vacant s.keys item) (hrun : create item s = .ok v t)
    (hpayload : (Envelope.wrap item (Event.lifecycle .created [])).encode = .ok payload)
    (hkeys : t.keys = s.keys.withItem item id payload) : Newborn t.keys item id := by
  have hinventory := (Lives.create hvacant hrun).inventory
  have hstored : ∀ k, t.keys.stored? (Key.sub item k) = k.newborn id := fun k => by
    rw [hkeys, stored?_withItem hvacant]
  have hlog : t.keys.stored? (Key.log id) = some (Kind.system :: payload) := by
    rw [hkeys, KeySpace.withItem, KeySpace.withSlot]
    have hne : ∀ k, Key.sub item k ≠ Key.log id := Key.sub_ne_log id item
    exact (KeySpace.stored?_insert_of_ne _ _ (hne .version)).trans
      ((KeySpace.stored?_insert_of_ne _ _ (hne (.slot _))).trans (KeySpace.stored?_insert_self _ _ _))
  have hevent : Stored t.keys item 0 [{ Event.lifecycle .created [] with id := id }] :=
    ⟨slotEvent_eq (hstored (.slot 0)) hlog hpayload, trivial⟩
  refine ⟨hstored, hinventory.version, ?_, ?_, ?_⟩
  · rw [Item.aliases, hinventory.version, ← hinventory.aliases]
    rfl
  · rw [Item.viewNames, hinventory.version, ← hinventory.views]
    rfl
  · exact load_eq hinventory.version hevent 0 0

end Item

/-! ## A life leaves nothing behind -/

/-- In a store that operations on items and takeovers of their events have built up, where no name
continues another, an item is created, served by any number of operations that are committed or
aborted one by one, and deleted. Then every key outside the log is as it was before: the indexes of
all items, this one included, and all alias pointers. If the item is created again, which fails only
for want of a time or of a free index in the log, it has the index that it gets in any store that has
no key of it, but for where the new event stands in the log: one event, no aliases and no views, and
no alias points at it. -/
theorem life_leaves_no_residue {P : ItemId → Prop} {s₀ s₁ t : Session} {item : ItemId} {ops : List Op}
    (hclear : ∀ a b, P a → P b → ¬ a.Continues b) (hreach : ReachableBy P s₀.keys) (hitem : P item)
    (hcreate : s₀.update (Item.create item) = (.ok (), s₁)) (hops : ∀ op ∈ ops, op.Serves item)
    (hdelete : (s₁.updates ops).update (Item.delete item) = (.ok (), t)) :
    (∀ key, (∀ id, key ≠ Key.log id) → t.keys.stored? key = s₀.keys.stored? key) ∧
      (∀ (again : Session) p id, again.keys = t.keys → item.partition = .ok p →
        again.clock.reading ≤ Clock.limit →
        Log.freeIndex again.keys p (UInt64.ofNat again.clock.reading) Log.indexCount 0 = .ok id →
        ∃ u, again.update (Item.create item) = (.ok (), u) ∧ Item.Newborn u.keys item id ∧
          ∀ x, Item.resolve u.keys x ≠ .ok item) ∧
      ∀ fresh u : Session, (∀ k, fresh.keys.stored? (Key.sub item k) = none) →
        fresh.update (Item.create item) = (.ok (), u) → ∃ id, Item.Newborn u.keys item id := by
  have hcreate := Txn.update_eq_ok.mp hcreate
  have hdelete := Txn.update_eq_ok.mp hdelete
  have htidy := tidy_of_reachableBy (separate_of_not_continues hclear) hreach
  obtain ⟨w, hthere, -, happend⟩ := Item.create_eq_ok hcreate
  have hvacant := (htidy.index item hitem).vacant hthere
  have hnone : ∀ x, Item.resolve s₀.keys x ≠ .ok item := fun x hx =>
    hvacant.not_listsAlias (htidy.pointer x item hx).2
  obtain ⟨n, xs, names, hlives⟩ := Item.Lives.updates ⟨1, [], [], .create hvacant hcreate⟩ hnone hops
  have hsame : ∀ key, (∀ id, key ≠ Key.log id) → t.keys.stored? key = s₀.keys.stored? key :=
    fun key hkey => hlives.delete hvacant hdelete hkey
  refine ⟨hsame, fun again p id hkeys hpartition hlimit hfree => ?_,
    fun fresh u hgone hrun => ?_⟩
  · have hgone : Vacant again.keys item := hvacant.congr fun k => by
      rw [hkeys]
      exact hsame _ fun id => Key.sub_ne_log id item k
    obtain ⟨-, payload, _, _, -, hpayload, -, hrecord⟩ := Item.append_eq_ok happend
    have hrun := Item.create_of_vacant hgone (Item.roomy_of_recordSlot hrecord) hpartition hpayload
      hlimit hfree
    refine ⟨_, Txn.update_eq_ok.mpr hrun, Item.newborn_of_create hgone hrun hpayload rfl, fun x hx => ?_⟩
    refine hnone x ((Item.resolve_congr ?_).trans hx)
    rw [(Item.Lives.create hgone hrun).pointer, if_neg List.not_mem_nil, hkeys]
    exact (hsame _ fun id => Key.pointer_ne_log id x).symm
  · have hrun := Txn.update_eq_ok.mp hrun
    obtain ⟨id, payload, hpayload, hkeys⟩ := Item.keys_of_create hrun
    exact ⟨id, Item.newborn_of_create hgone hrun hpayload hkeys⟩

namespace Residue

def x : ItemId := ⟨1, [120]⟩

def y : ItemId := ⟨1, [121]⟩

/-- The item has lived before, and another one has an alias. -/
def earlier : List (List Op) :=
  [[.create x, .addAlias x ⟨2, [97]⟩, .sync x [115] View.idle ()], [.delete x],
    [.create y, .addAlias y ⟨2, [98]⟩]]

/-- The alias of the other item cannot be had. -/
def served : List Op :=
  [.put x (.entity [] []), .addAlias x ⟨2, [97]⟩, .addAlias x ⟨2, [98]⟩, .sync x [115] View.idle (),
    .addAlias x ⟨2, [99]⟩, .removeAlias x ⟨2, [97]⟩, .sync x [] View.idle ()]

def before : Session := (Run.run earlier (.start (.steady 5 1))).2

def created : Session := (before.update (Item.create x)).2

def deleted : Session := ((created.updates served).update (Item.delete x)).2

theorem life_leaves_no_residue_secondLife :
    (∀ key, (∀ id, key ≠ Key.log id) → deleted.keys.stored? key = before.keys.stored? key) ∧
      ∃ u, deleted.update (Item.create x) = (.ok (), u) ∧ Item.Newborn u.keys x ⟨1, 16, 0⟩ := by
  have hclear : ∀ a b, a = x ∨ a = y → b = x ∨ b = y → ¬ a.Continues b := by
    rintro a b (rfl | rfl) (rfl | rfl) <;> exact ItemId.not_continues_of_length le_rfl
  have hreach : ReachableBy (fun a => a = x ∨ a = y) before.keys := by
    unfold before
    refine (Run.reached earlier (.steady 5 1)).reachableBy (Run.forall_mem_trace
      (Q := fun op => ∀ a, op.item? = some a → a = x ∨ a = y) (fun m h => h) ?_)
    simp [earlier, Op.item?]
  have hcommit : ∀ {s : Session} {m : Txn Unit}, (s.update m).1.toOption = some () →
      s.update m = (.ok (), (s.update m).2) := fun h => Prod.ext (Outcome.eq_ok_of_toOption h) rfl
  have hcreate : before.update (Item.create x) = (.ok (), created) := hcommit (by decide +kernel)
  have hdelete : (created.updates served).update (Item.delete x) = (.ok (), deleted) :=
    hcommit (by decide +kernel)
  have hserved : ∀ op ∈ served, op.Serves x := by simp [served, Op.Serves]
  have hfree : Log.freeIndex deleted.keys 1 (UInt64.ofNat deleted.clock.reading) Log.indexCount 0 =
      .ok ⟨1, 16, 0⟩ := Outcome.eq_ok_of_toOption (by decide +kernel)
  have hlimit : deleted.clock.reading ≤ Clock.limit := by decide +kernel
  obtain ⟨hsame, hagain, -⟩ := life_leaves_no_residue hclear hreach (.inl rfl) hcreate hserved hdelete
  obtain ⟨u, hrun, hborn, -⟩ := hagain deleted 1 ⟨1, 16, 0⟩ rfl rfl hlimit hfree
  exact ⟨hsame, u, hrun, hborn⟩

end Residue

end Chronicle
