import Mathlib
import Chronicle.Proofs.AliasOwners
import Chronicle.Proofs.Success

/-!
# Appending and taking over

Every operation on an item carries out one event: it starts the index if the event creates the
item, appends the event and settles what the event is about. Taking over the appended event
instead does the same, in another order and without a look at the clock.
-/
namespace Chronicle

variable {s t : Session} {item : ItemId} {event : Event}

theorem Event.isLifecycle_of_kind_ne (h : event.kind ≠ Kind.system) (what : Lifecycle) :
    event.isLifecycle what = false := by
  simp [isLifecycle, h]

/-- An event of a kind that no item has is none of the lifecycle. -/
theorem Event.isLifecycle_of_foreign (hkind : Kind.isItem event.kind = false) (what : Lifecycle) :
    event.isLifecycle what = false := by
  refine isLifecycle_of_kind_ne (fun heq => ?_) what
  rw [heq] at hkind
  exact absurd hkind (by decide)

namespace Item

/-- Carries out an event of the item. -/
def perform (item : ItemId) (event : Event) : Txn Unit := do
  startIndex item event
  let slot ← Txn.query fun keys => version keys item
  append item slot event
  settle item event

theorem perform_eq_ok {v : Unit} : perform item event s = .ok v t ↔ ∃ s₁ slot s₂,
    startIndex item event s = .ok () s₁ ∧ version s₁.keys item = .ok slot ∧
      append item slot event s₁ = .ok () s₂ ∧ settle item event s₂ = .ok () t := by
  constructor
  · intro h
    obtain ⟨_, s₁, hstart, h⟩ := Txn.bind_eq_ok.mp h
    obtain ⟨slot, s₁, hquery, h⟩ := Txn.bind_eq_ok.mp h
    obtain ⟨hslot, rfl⟩ := Txn.query_eq_ok.mp hquery
    obtain ⟨_, s₂, happend, hsettle⟩ := Txn.bind_eq_ok.mp h
    exact ⟨_, slot, s₂, hstart, hslot, happend, hsettle⟩
  · rintro ⟨s₁, slot, s₂, hstart, hslot, happend, hsettle⟩
    exact Txn.bind_eq_ok.mpr ⟨(), s₁, hstart, Txn.bind_eq_ok.mpr ⟨slot, s₁,
      Txn.query_eq_ok.mpr ⟨hslot, rfl⟩, Txn.bind_eq_ok.mpr ⟨(), s₂, happend, hsettle⟩⟩⟩

/-! ## The operations -/

theorem startIndex_of_not_created (h : event.isLifecycle .created = false) :
    startIndex item event s = .ok () s := by
  rw [startIndex, h]
  rfl

/-- An event that is appended to the item as it is, and settled. -/
theorem perform_of_put {slot : Nat} {u : Session} (hcreated : event.isLifecycle .created = false)
    (hput : putNext item event s = .ok slot u) (hsettle : settle item event u = .ok () t) :
    perform item event s = .ok () t := by
  obtain ⟨hslot, happend⟩ := putNext_eq_ok.mp hput
  exact perform_eq_ok.mpr ⟨s, slot, u, startIndex_of_not_created hcreated, hslot, happend, hsettle⟩

/-- An event outside the lifecycle has no effect beside its slot. -/
theorem perform_of_putNext {slot : Nat} (hplain : ∀ what, event.isLifecycle what = false)
    (h : putNext item event s = .ok slot t) : perform item event s = .ok () t := by
  refine perform_of_put (hplain _) h ?_
  rw [settle, hplain, hplain, hplain]
  rfl

theorem perform_of_delete {v : Unit} (h : delete item s = .ok v t) :
    perform item (Event.lifecycle .deleted []) s = .ok () t := by
  obtain ⟨slot, u, hput, hteardown⟩ := delete_eq_ok h
  exact perform_of_put rfl (put_eq_ok.mp hput).2 hteardown

theorem perform_of_addAlias {x : ItemId} {v : Unit} (h : addAlias item x s = .ok v t) :
    perform item (Event.lifecycle .aliased x.encode) s = .ok () t := by
  obtain ⟨slot, u, hput, hlink⟩ := addAlias_eq_ok h
  refine perform_of_put rfl (put_eq_ok.mp hput).2 ?_
  exact Txn.bind_eq_ok.mpr ⟨x, u, Txn.lift_eq_ok.mpr ⟨ItemId.decode_encode x, rfl⟩, hlink⟩

theorem perform_of_removeAlias {x : ItemId} {v : Unit} (h : removeAlias item x s = .ok v t) :
    perform item (Event.lifecycle .unaliased x.encode) s = .ok () t := by
  obtain ⟨slot, u, -, hput, hunlink⟩ := removeAlias_eq_ok h
  refine perform_of_put rfl (put_eq_ok.mp hput).2 ?_
  exact Txn.bind_eq_ok.mpr ⟨x, u, Txn.lift_eq_ok.mpr ⟨ItemId.decode_encode x, rfl⟩, hunlink⟩

theorem perform_of_create {v : Unit} (h : create item s = .ok v t) :
    perform item (Event.lifecycle .created []) s = .ok () t := by
  obtain ⟨u, hthere, hinit, happend⟩ := create_eq_ok h
  have hstart : startIndex item (Event.lifecycle .created []) s = .ok () u :=
    Txn.bind_eq_ok.mpr ⟨false, s, Txn.query_eq_ok.mpr ⟨hthere, rfl⟩, hinit⟩
  exact perform_eq_ok.mpr ⟨u, 0, t, hstart, version_of_initIndex hinit, happend, rfl⟩

end Item

/-! ## Appended events -/

/-- A key outside the log. -/
def Key.OffLog (key : Bytes) : Prop := key.head? ≠ some logTag

theorem Key.not_offLog_log (id : EventId) : ¬ OffLog (log id) := fun h => h rfl

theorem Key.offLog_sub (item : ItemId) (k : SubKey) : OffLog (sub item k) := head?_index_ne _ _ _

theorem Key.offLog_pointer (x : ItemId) : OffLog (pointer x) := head?_pointer_ne x

/-- From `s` to `t` the log has got the event, at the time that the clock showed. -/
structure LogEvent.Entered (e : LogEvent) (s t : Session) : Prop where
  limit : s.clock.reading ≤ Clock.limit
  time : e.id.timestamp = UInt64.ofNat s.clock.reading
  clock : t.clock = s.clock.tick
  adds : Log.Adds s.keys t.keys e
  log : (s.keys.withLog [e]).Agree (fun key => ¬ Key.OffLog key) t.keys

/-- The event has been entered, and taking it over leads to the same key space. -/
structure LogEvent.Appended (e : LogEvent) (s t : Session) : Prop extends LogEvent.Entered e s t where
  takeover : ∀ clock, Replication.apply [e] ⟨s.keys, clock⟩ = .ok 1 ⟨t.keys, clock⟩

theorem Log.put_entered {partition : UInt8} {event : LogEvent} {id : EventId}
    (h : put partition event s = .ok id t) : LogEvent.Entered { event with id := id } s t := by
  obtain ⟨hlimit, -, htime, hfree, rfl⟩ := put_eq_ok h
  refine ⟨hlimit, htime, rfl, ⟨hfree, KeySpace.stored?_insert_self _ _ _, fun other hother => ?_⟩,
    .refl _⟩
  exact KeySpace.stored?_insert_of_ne _ _ fun heq => hother (Key.log_injective heq).symm

/-- An entry of a kind that no item has is taken over into the log alone. -/
theorem Log.put_appended {partition : UInt8} {event : LogEvent} {id : EventId}
    (hmark : Kind.isItem event.mark = false) (h : put partition event s = .ok id t) :
    LogEvent.Appended { event with id := id } s t := by
  obtain ⟨-, -, -, -, rfl⟩ := put_eq_ok h
  exact ⟨put_entered h, fun clock => Replication.apply_foreign hmark⟩

namespace Item

/-- An event that is carried out enters the log, and a takeover comes to the index of an item by the
same parts as an append. -/
theorem perform_entered (h : perform item event s = .ok () t) : ∃ e : LogEvent, e.Entered s t ∧
    e.mark = event.kind ∧ e.itemEvent = .ok ⟨item, { event with id := e.id }⟩ ∧
      item.tag = e.id.partition.toUInt16 ∧ (Kind.isItem event.kind = true →
        ∀ clock, Replication.apply [e] ⟨s.keys, clock⟩ = .ok 1 ⟨t.keys, clock⟩) := by
  obtain ⟨s₁, slot, s₃, hstart, hslot, happend, hsettle⟩ := perform_eq_ok.mp h
  obtain ⟨partition, payload, id, s₂, hpartition, hpayload, hput, hrecord⟩ := append_eq_ok happend
  have hentered := Log.put_entered hput
  obtain ⟨-, rfl, -, -, rfl⟩ := Log.put_eq_ok hput
  have hoff := Key.offLog_sub item
  have hstart_local : (startIndex item event).Local Key.OffLog s := local_startIndex hoff event
  have hrecord_local := local_recordSlot (s := ⟨s₁.keys.insert (Key.log id) (event.kind :: payload),
    s₁.clock.tick⟩) hoff slot id event.kind
  have hsettle_local : (settle item event).Local Key.OffLog s₃ :=
    local_settle hoff (fun _ x _ => Key.offLog_pointer x) fun _ => Key.offLog_pointer _
  have hsame : ∀ {a b : KeySpace}, a.Agree (fun key => ¬ Key.OffLog key) b → Log.Same a b :=
    fun h id => (h _ (Key.not_offLog_log id)).symm
  obtain ⟨hkeys₁, hclock₁⟩ := hstart_local.frame hstart
  obtain ⟨hkeys₃, hclock₃⟩ := hrecord_local.frame hrecord
  obtain ⟨hkeys, hclock⟩ := hsettle_local.frame hsettle
  have hitem : LogEvent.itemEvent ⟨event.kind, id, payload⟩ =
      .ok ((Envelope.wrap item event).unwrap event.kind id) := LogEvent.itemEvent_of_encode hpayload
  refine ⟨⟨event.kind, id, payload⟩, ⟨?_, ?_, ?_, ?_, ?_⟩, rfl, hitem, ?_, fun hkind clock => ?_⟩
  · rw [← hclock₁]
    exact hentered.limit
  · rw [← hclock₁]
    exact hentered.time
  · rw [hclock, hclock₃, hclock₁]
  · exact ((hentered.adds.after_same (hsame hkeys₁)).before_same (hsame hkeys₃)).before_same
      (hsame hkeys)
  · exact ((hkeys₁.insert _ _).trans hkeys₃).trans hkeys
  · rw [ItemId.partition_eq_ok] at hpartition
    rw [← UInt16.toNat_inj, hpartition, UInt8.toNat_toUInt16]
  · -- the entry comes first, which changes nothing of the index
    have hstart' := hstart_local.after_insert hstart (Key.not_offLog_log id) (event.kind :: payload)
      clock
    have hslot' : version (s₁.keys.insert (Key.log id) (event.kind :: payload)) item = .ok slot := by
      rw [version_congr (KeySpace.stored?_insert_of_ne _ _ (Key.log_ne_sub id item .version)), hslot]
    have hrecord' := hrecord_local.at_clock hrecord clock
    have hsettle' := hsettle_local.at_clock hsettle clock
    have hreplicate := replicate_eq_ok.mpr ⟨_, _, slot, _, hitem, hstart', hslot', hrecord', hsettle'⟩
    rw [Replication.apply_eq_ok, List.filter_cons_of_pos (by exact hkind)]
    exact ⟨rfl, Txn.bind_eq_ok.mpr ⟨(), _, hreplicate, rfl⟩⟩

theorem perform_appended (hkind : Kind.isItem event.kind = true)
    (h : perform item event s = .ok () t) : ∃ e : LogEvent, e.Appended s t ∧ e.mark = event.kind ∧
      e.itemEvent = .ok ⟨item, { event with id := e.id }⟩ ∧
      item.tag = e.id.partition.toUInt16 := by
  obtain ⟨e, hentered, hmark, hitem, htag, htakeover⟩ := perform_entered h
  exact ⟨e, ⟨hentered, htakeover hkind⟩, hmark, hitem, htag⟩

end Item

/-! ## Operations of a primary -/

/-- An operation whose events a replica can take over: it writes no views, its events of the
domain are no others, and its own log entries stand for themselves. -/
def Op.Shippable : Op → Prop
  | .put _ event => event.kind = Kind.entity
  | .log _ event => Kind.isItem event.mark = false
  | .sync _ _ _ _ | .logAt _ _ _ => False
  | _ => True

theorem Event.aliasTarget_ne_ok {x : ItemId} (haliased : event.isLifecycle .aliased = false)
    (hunaliased : event.isLifecycle .unaliased = false) : event.aliasTarget ≠ .ok x := by
  rw [aliasTarget, if_neg (by simp [haliased, hunaliased])]
  nofun

theorem Change.kind_of_toEvent {c : Change} (h : c.toEvent = .ok event) :
    event.kind = Kind.schema := by
  have hnew : ∀ {outcome : Outcome Bytes} {eventType : Bytes},
      (outcome >>= fun bytes => pure (Event.new Kind.schema eventType bytes)) = .ok event →
        event.kind = Kind.schema := by
    intro outcome eventType h
    cases outcome with
    | error fault => cases h
    | ok bytes =>
      cases h
      rfl
  cases c <;> exact hnew h

variable {owner : ItemId → UInt8}

namespace Item

/-- The event has been appended and can be taken over in the partition of its item. -/
theorem fits_of_perform (hkind : Kind.isItem event.kind = true)
    (htarget : ∀ {x}, event.aliasTarget = .ok x → owner x = item.tag.toUInt8)
    (h : perform item event s = .ok () t) :
    ∃ e : LogEvent, e.Appended s t ∧ (Kind.isItem e.mark = true → ∃ found, e.Fits owner found) := by
  obtain ⟨e, happended, -, hitem, htag⟩ := perform_appended hkind h
  refine ⟨e, happended, fun _ => ⟨_, hitem, htag, fun hx => ?_⟩⟩
  rw [htarget hx, htag, UInt8.toUInt8_toUInt16]

theorem fits_of_putNext {slot : Nat} (hkind : Kind.isItem event.kind = true)
    (hsystem : event.kind ≠ Kind.system) (h : putNext item event s = .ok slot t) :
    ∃ e : LogEvent, e.Appended s t ∧ (Kind.isItem e.mark = true → ∃ found, e.Fits owner found) := by
  have hplain := Event.isLifecycle_of_kind_ne hsystem
  exact fits_of_perform hkind (fun hx => absurd hx (Event.aliasTarget_ne_ok (hplain _) (hplain _)))
    (perform_of_putNext hplain h)

theorem fits_of_create {v : Unit} (h : create item s = .ok v t) :
    ∃ e : LogEvent, e.Appended s t ∧ (Kind.isItem e.mark = true → ∃ found, e.Fits owner found) :=
  fits_of_perform rfl (fun hx => absurd hx (Event.aliasTarget_ne_ok rfl rfl)) (perform_of_create h)

theorem target_lifecycle {what : Lifecycle} {x y : ItemId}
    (hy : (Event.lifecycle what x.encode).aliasTarget = .ok y) : x = y := by
  unfold Event.aliasTarget at hy
  split_ifs at hy
  exact Except.ok.inj ((ItemId.decode_encode x).symm.trans hy)

end Item

/-- The owner of an alias is the item that its pointer names. -/
theorem Owned.resolve {keys : KeySpace} {x : ItemId} (h : Owned owner keys)
    (hx : Item.resolve keys x = .ok item) : item.tag = (owner x).toUInt16 := by
  obtain ⟨_ | entry, hget, hx⟩ := Outcome.bind_eq_ok.mp hx
  · cases hx
  obtain ⟨other, hstored, htag⟩ := h.pointer (KeySpace.stored?_of_get hget)
  rw [Entry.stored, List.cons.injEq] at hstored
  change ItemId.decode entry.value = _ at hx
  rw [hstored.2, ItemId.decode_encode, Except.ok.injEq] at hx
  rwa [← hx]

/-- What an operation appends can be taken over, as long as it aliases no item under the alias of
another partition. -/
theorem Op.appended {op : Op} {reply : Reply} (hshippable : op.Shippable) (hready : op.Ready s.keys)
    (howned : Owned owner s.keys)
    (halias : ∀ item x, op = .addAlias item x → owner x = item.tag.toUInt8)
    (hop : op.run s = .ok reply t) : s = t ∨
    ∃ e : LogEvent, e.Appended s t ∧ (Kind.isItem e.mark = true → ∃ found, e.Fits owner found) := by
  cases done hready rfl hop with
  | create hcreate => exact .inr (Item.fits_of_create hcreate)
  | @put item event slot hput =>
    have hkind : event.kind = Kind.entity := hshippable
    refine .inr (Item.fits_of_putNext ?_ ?_ (Item.put_eq_ok.mp hput).2)
    · rw [hkind]
      decide
    · rw [hkind]
      decide
  | @addAlias item x hadd =>
    refine .inr (Item.fits_of_perform rfl (fun hy => ?_) (Item.perform_of_addAlias hadd))
    rw [← Item.target_lifecycle hy]
    exact halias item x rfl
  | removeAlias hremove =>
    refine .inr (Item.fits_of_perform rfl (fun hy => ?_) (Item.perform_of_removeAlias hremove))
    obtain ⟨-, -, hresolve, -, -⟩ := Item.removeAlias_eq_ok hremove
    rw [← Item.target_lifecycle hy, howned.resolve hresolve, UInt8.toUInt8_toUInt16]
  | delete hdelete =>
    exact .inr (Item.fits_of_perform rfl (fun hx => absurd hx (Event.aliasTarget_ne_ok rfl rfl))
      (Item.perform_of_delete hdelete))
  | found _ hsame => exact .inl hsame
  | ensure _ hcreate => exact .inr (Item.fits_of_create hcreate)
  | mutate hevent hput =>
    have hkind := Change.kind_of_toEvent hevent
    refine .inr (Item.fits_of_putNext ?_ ?_ hput)
    · rw [hkind]
      decide
    · rw [hkind]
      decide
  | @log p event id hput =>
    have hmark : Kind.isItem event.mark = false := hshippable
    exact .inr ⟨_, Log.put_appended hmark hput, fun h => absurd h (by simp [hmark])⟩
  | sync | logAt => exact hshippable.elim

end Chronicle
