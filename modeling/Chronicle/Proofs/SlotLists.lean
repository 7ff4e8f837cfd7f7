import Mathlib
import Chronicle.Proofs.LogCalls
import Chronicle.Proofs.Success
import Chronicle.Proofs.ViewFolds

/-!
# Slots and log events

The slots of an item point, one after the other, at the entries that its events have in the log. An
operation on the item leaves its slots alone, adds one for the entry that it has appended, or removes
them all. So each slot has an entry of its own, with an envelope that names the item, and what reads
the slots of an item that is there cannot fail.
-/
namespace Chronicle

namespace Item

variable {keys : KeySpace} {s t : Session} {item : ItemId} {stream : Option (List Event)}
  {events : List Event} {v : Unit}

/-! ## Slot pointers -/

/-- The slots of the item point at the events of its stream and the version is their number. Without
a stream there is neither a slot nor a version. -/
structure Slotted (keys : KeySpace) (item : ItemId) (stream : Option (List Event)) : Prop where
  version? : version? keys item = .ok (stream.map List.length)
  slot : ∀ n, keys.stored? (Key.slot item n) =
    (stream.getD [])[n.toNat]?.map fun e => e.kind :: Key.log e.id

theorem version?_of_not_stored (h : keys.stored? (Key.version item) = none) :
    version? keys item = .ok none := by
  have hget : keys.get (Key.version item) = .ok none :=
    KeySpace.get_eq_none (Key.index_ne_nil _ _ _) h
  rw [version?, hget]
  rfl

theorem isThere_of_version?_none (h : version? keys item = .ok none) :
    isThere keys item = .ok false := by
  obtain ⟨_ | entry, hget, h⟩ := Outcome.bind_eq_ok.mp h
  · rw [isThere, KeySpace.contains, hget]
    rfl
  · obtain ⟨counter, -, h⟩ := Outcome.bind_eq_ok.mp h
    cases h

theorem slotted_empty (item : ItemId) : Slotted .empty item none :=
  ⟨version?_of_not_stored (KeySpace.stored?_empty _), fun _ => KeySpace.stored?_empty _⟩

namespace Slotted

theorem version (h : Slotted keys item (some events)) : version keys item = .ok events.length := by
  rw [Item.version, h.version?]
  rfl

theorem exists_events {n : Nat} (h : Slotted keys item stream) (hversion : Item.version keys item = .ok n) :
    ∃ events, stream = some events ∧ events.length = n := by
  have hsame := (version?_of_version hversion).symm.trans h.version?
  rw [Except.ok.injEq, eq_comm, Option.map_eq_some_iff] at hsame
  exact hsame

theorem eq_none (h : Slotted keys item stream) (hthere : isThere keys item = .ok false) :
    stream = none := by
  have hsame := (version?_of_not_stored (isThere_eq_false_iff.mp hthere)).symm.trans h.version?
  rw [Except.ok.injEq, eq_comm, Option.map_eq_none_iff] at hsame
  exact hsame

theorem congr {other : KeySpace} (h : Slotted keys item stream)
    (hversion : other.stored? (Key.version item) = keys.stored? (Key.version item))
    (hslot : ∀ n, other.stored? (Key.slot item n) = keys.stored? (Key.slot item n)) :
    Slotted other item stream :=
  ⟨(version?_congr hversion).trans h.version?, fun n => (hslot n).trans (h.slot n)⟩

/-- Writes that leave version and slots alone change nothing. -/
theorem within {F : Bytes → Prop} (h : Slotted s.keys item stream) (hwithin : s.Within F t)
    (hversion : ¬ F (Key.version item)) (hslot : ∀ n, ¬ F (Key.slot item n)) :
    Slotted t.keys item stream :=
  h.congr (hwithin.frame hversion) fun n => hwithin.frame (hslot n)

theorem aside (h : Slotted s.keys item stream) (hwithin : s.Within (Aside item) t) :
    Slotted t.keys item stream := h.within hwithin not_aside_version not_aside_slot

theorem initIndex (h : Slotted s.keys item none) (hrun : initIndex item s = .ok v t) :
    Slotted t.keys item (some []) := by
  refine ⟨version?_of_version (version_of_initIndex hrun), fun n => ?_⟩
  exact (stored?_initIndex hrun (.slot n)).trans (h.slot n)

theorem recordSlot (event : Event) (h : Slotted s.keys item (some events))
    (hrun : recordSlot item events.length event.id event.kind s = .ok v t) :
    Slotted t.keys item (some (events ++ [event])) := by
  refine ⟨by rw [version?_of_version (recordSlot_spec hrun).1]; simp, fun n => ?_⟩
  rw [stored?_slot_recordSlot hrun, h.slot n]
  change _ = (events ++ [event])[n.toNat]?.map _
  rw [getElem?_concat]
  split_ifs
  · rfl
  · rfl

end Slotted

/-- What goes through has read both lists of the item. -/
theorem lists_of_teardown (hrun : teardown item s = .ok v t) :
    ∃ xs names, aliasList s.keys item = .ok xs ∧ viewList s.keys item = .ok names := by
  obtain ⟨xs, s₀, hquery, hrun⟩ := Txn.bind_eq_ok.mp hrun
  obtain ⟨haliases, rfl⟩ := Txn.query_eq_ok.mp hquery
  obtain ⟨_, s₁, hpointers, hrun⟩ := Txn.bind_eq_ok.mp hrun
  obtain ⟨_, s₂, hdelete, hrun⟩ := Txn.bind_eq_ok.mp hrun
  obtain ⟨names, s₂, hquery, -⟩ := Txn.bind_eq_ok.mp hrun
  obtain ⟨hviews, rfl⟩ := Txn.query_eq_ok.mp hquery
  obtain ⟨-, rfl⟩ := Txn.delete_eq_ok.mp hdelete
  obtain ⟨u, t, hforM, hlist, hgone⟩ := Txn.sweep (f := Key.pointer)
    (k := Key.aliases item) (fun _ => nofun) (Key.index_ne_nil _ _ _) xs s
  rw [hpointers] at hforM
  cases hforM
  obtain ⟨-, rfl⟩ := Txn.delete_eq_ok.mp hlist
  exact ⟨xs, names, haliases, (viewList_of_gone hgone).symm.trans hviews⟩

theorem Slotted.teardown (h : Slotted s.keys item (some events)) (hrun : teardown item s = .ok v t) :
    Slotted t.keys item none := by
  obtain ⟨xs, names, haliases, hviews⟩ := lists_of_teardown hrun
  obtain ⟨u, hteardown, hnone, -⟩ := teardown_of_lists haliases hviews h.version?
  rw [hrun] at hteardown
  cases hteardown
  refine ⟨version?_of_not_stored (hnone .version trivial), fun n => ?_⟩
  by_cases hn : n.toNat < events.length
  · exact hnone (.slot n) hn
  · refine (keeps_none_teardown _).of_ok ((h.slot n).trans ?_) hrun
    rw [Option.map_eq_none_iff]
    exact List.getElem?_eq_none (not_lt.mp hn)

/-! ## Operations -/

/-- From `s` to `t` the event has been appended to the item, which had the events before. -/
structure Grows (item : ItemId) (s t : Session) (events : List Event) (event : Event) : Prop where
  slotted : Slotted t.keys item (some (events ++ [event]))
  logged : Logged t.keys item event
  owns : item.Owns event.id
  puts : ∃ e, e.id = event.id ∧ s.Puts e t

/-- What an operation on the item has made of its stream. -/
inductive Turned (item : ItemId) (s t : Session) (stream : Option (List Event)) : Prop
  | same (h : Slotted t.keys item stream)
  | ends (h : Slotted t.keys item none)
  | grows {event : Event} (h : Grows item s t (stream.getD []) event)

namespace Grows

variable {event : Event} {u : Session}

theorem before (hwithin : s.Within Key.OffLog t) (h : Grows item t u events event) :
    Grows item s u events event := by
  obtain ⟨e, hid, hputs⟩ := h.puts
  exact ⟨h.slotted, h.logged, h.owns, e, hid, hputs.before hwithin⟩

theorem aside (h : Grows item s t events event) (hwithin : t.Within (Aside item) u)
    (hsilent : t.Within Key.OffLog u) : Grows item s u events event := by
  obtain ⟨e, hid, hputs⟩ := h.puts
  exact ⟨h.slotted.aside hwithin, h.logged.within hwithin, h.owns, e, hid, hputs.after hsilent⟩

end Grows

namespace Slotted

variable {event : Event} {x : ItemId} {slot : Nat}

theorem append (h : Slotted s.keys item (some events))
    (hrun : append item events.length event s = .ok v t) :
    ∃ event, Grows item s t events event := by
  obtain ⟨partition, payload, id, u, hpartition, hpayload, hput, hrecord⟩ := append_eq_ok hrun
  have hputs := (Session.puts_of_put hput).after ((silent_recordSlot _ _ _).of_ok hrecord)
  obtain ⟨-, rfl, -, -, rfl⟩ := Log.put_eq_ok hput
  have hslotted : Slotted (s.keys.insert (Key.log id) (event.kind :: payload)) item (some events) :=
    h.congr (KeySpace.stored?_insert_of_ne _ _ (Key.log_ne_sub id item .version)) fun n =>
      KeySpace.stored?_insert_of_ne _ _ (Key.log_ne_sub id item (.slot n))
  rw [ItemId.partition_eq_ok] at hpartition
  exact ⟨{ event with id := id },
    hslotted.recordSlot (s := ⟨_, s.clock.tick⟩) { event with id := id } hrecord,
    ⟨payload, hpayload, hputs.adds.entry⟩, hpartition.symm, _, rfl, hputs⟩

theorem putNext (h : Slotted s.keys item stream) (hrun : putNext item event s = .ok slot t) :
    ∃ event, Grows item s t (stream.getD []) event := by
  obtain ⟨hversion, happend⟩ := putNext_eq_ok.mp hrun
  obtain ⟨events, rfl, rfl⟩ := h.exists_events hversion
  exact h.append happend

theorem create (h : Slotted s.keys item stream) (hrun : create item s = .ok v t) :
    ∃ event, Grows item s t (stream.getD []) event := by
  obtain ⟨u, hthere, hinit, happend⟩ := create_eq_ok hrun
  obtain rfl := h.eq_none hthere
  obtain ⟨event, hgrows⟩ := (h.initIndex hinit).append happend
  exact ⟨event, hgrows.before
    ((Txn.Keeps.silent (writes_initIndex (Key.offLog_sub item))).of_ok hinit)⟩

theorem addAlias (h : Slotted s.keys item stream) (hrun : addAlias item x s = .ok v t) :
    ∃ event, Grows item s t (stream.getD []) event := by
  obtain ⟨slot, u, hput, hlink⟩ := addAlias_eq_ok hrun
  obtain ⟨event, hgrows⟩ := h.putNext (put_eq_ok.mp hput).2
  exact ⟨event, hgrows.aside (link_aside hlink) ((Txn.Keeps.silent
    (writes_link (Key.offLog_pointer x) (Key.offLog_sub item .aliases))).of_ok hlink)⟩

theorem removeAlias (h : Slotted s.keys item stream) (hrun : removeAlias item x s = .ok v t) :
    ∃ event, Grows item s t (stream.getD []) event := by
  obtain ⟨slot, u, -, hput, hunlink⟩ := removeAlias_eq_ok hrun
  obtain ⟨event, hgrows⟩ := h.putNext (put_eq_ok.mp hput).2
  exact ⟨event, hgrows.aside (unlink_aside hunlink) ((Txn.Keeps.silent
    (writes_unlink (Key.offLog_pointer x) (Key.offLog_sub item .aliases))).of_ok hunlink)⟩

theorem delete (h : Slotted s.keys item stream) (hrun : delete item s = .ok v t) :
    Slotted t.keys item none := by
  obtain ⟨slot, u, hput, hteardown⟩ := delete_eq_ok hrun
  obtain ⟨event, hgrows⟩ := h.putNext (put_eq_ok.mp hput).2
  exact hgrows.slotted.teardown hteardown

end Slotted

end Item

/-- An operation on the item that succeeds. -/
theorem Op.turned {op : Op} {reply : Reply} {s t : Session} {item : ItemId}
    {stream : Option (List Event)} (hready : op.Ready s.keys) (hitem : op.item? = some item)
    (hrun : op.run s = .ok reply t) (h : Item.Slotted s.keys item stream) :
    Item.Turned item s t stream := by
  have hgrows : (∃ event, Item.Grows item s t (stream.getD []) event) →
      Item.Turned item s t stream := fun ⟨event, h⟩ => .grows h
  cases Op.done hready hitem hrun with
  | create hcreate => exact hgrows (h.create hcreate)
  | put hput => exact hgrows (h.putNext (Item.put_eq_ok.mp hput).2)
  | addAlias hadd => exact hgrows (h.addAlias hadd)
  | removeAlias hremove => exact hgrows (h.removeAlias hremove)
  | delete hdelete => exact .ends (h.delete hdelete)
  | sync hsync => exact .same (h.aside (Item.sync_aside hsync))
  | found _ hsame => exact .same (hsame ▸ h)
  | ensure _ hcreate => exact hgrows (h.create hcreate)
  | mutate _ hput => exact hgrows (h.putNext hput)

/-- An operation on an item whose index is out of its reach. -/
theorem Item.Slotted.of_apart {op : Op} {reply : Reply} {s t : Session} {item : ItemId}
    {stream : Option (List Event)} (h : Item.Slotted s.keys item stream)
    (hapart : ∀ a, op.item? = some a → a.Apart item) (hrun : op.run s = .ok reply t) :
    Item.Slotted t.keys item stream :=
  h.within (Txn.Keeps.writes_of_ok op.writes hrun).within (Op.not_touches_sub hapart .version)
    fun n => Op.not_touches_sub hapart (.slot n)

/-! ## Entries of their own -/

namespace Item

variable {keys : KeySpace} {s t : Session} {item other : ItemId} {stream : Option (List Event)}
  {events : List Event}

/-- Each of the events, and there is one, has an entry of its own in the partition of the item, with
an envelope that names the item. -/
structure Backed (keys : KeySpace) (item : ItemId) (events : List Event) : Prop where
  nonempty : events ≠ []
  distinct : (events.map Event.id).Nodup
  logged : ∀ event ∈ events, item.Owns event.id ∧ Logged keys item event

theorem Backed.within {F : Bytes → Prop} (h : Backed s.keys item events) (hwithin : s.Within F t) :
    Backed t.keys item events :=
  ⟨h.nonempty, h.distinct, fun event hevent =>
    ⟨(h.logged event hevent).1, (h.logged event hevent).2.within hwithin⟩⟩

theorem Logged.stored? {event : Event} (h : Logged keys item event) :
    keys.stored? (Key.log event.id) ≠ none := by
  obtain ⟨payload, -, hstored⟩ := h
  rw [hstored]
  exact Option.some_ne_none _

/-- The identity of the event that is added was free, those of the others were not. -/
theorem Grows.backed {F : Bytes → Prop} {event : Event} (hgrows : Grows item s t events event)
    (hwithin : s.Within F t) (h : events = [] ∨ Backed s.keys item events) :
    Backed t.keys item (events ++ [event]) := by
  have hlogged : ∀ old ∈ events, item.Owns old.id ∧ Logged s.keys item old := by
    rcases h with rfl | h
    · simp
    · exact h.logged
  have hdistinct : (events.map Event.id).Nodup := by
    rcases h with rfl | h
    · exact .nil
    · exact h.distinct
  obtain ⟨e, hid, hputs⟩ := hgrows.puts
  refine ⟨by simp, ?_, fun old hold => ?_⟩
  · rw [List.map_append, List.map_singleton, ← List.concat_eq_append, List.nodup_concat]
    refine ⟨fun hmem => ?_, hdistinct⟩
    obtain ⟨old, hold, hsame⟩ := List.mem_map.mp hmem
    refine (hlogged old hold).2.stored? ?_
    rw [hsame, ← hid]
    exact hputs.adds.free.1
  · rcases List.mem_append.mp hold with hold | hold
    · exact ⟨(hlogged old hold).1, (hlogged old hold).2.within hwithin⟩
    · rw [List.mem_singleton.mp hold]
      exact ⟨hgrows.owns, hgrows.logged⟩

/-- The slots of the item point at events that have entries of their own, or there is no item. -/
def Linked (keys : KeySpace) (item : ItemId) : Prop :=
  ∃ stream, Slotted keys item stream ∧ ∀ events ∈ stream, Backed keys item events

theorem linked_empty (item : ItemId) : Linked .empty item := ⟨none, slotted_empty item, nofun⟩

theorem Turned.linked {F : Bytes → Prop} (hturned : Turned item s t stream)
    (hwithin : s.Within F t) (h : ∀ events ∈ stream, Backed s.keys item events) :
    Linked t.keys item := by
  cases hturned with
  | same hslotted => exact ⟨stream, hslotted, fun events hevents => (h events hevents).within hwithin⟩
  | ends hslotted => exact ⟨none, hslotted, nofun⟩
  | grows hgrows =>
    refine ⟨_, hgrows.slotted, fun events hevents => ?_⟩
    rw [← Option.some.inj hevents]
    refine hgrows.backed hwithin ?_
    cases stream with
    | none => exact .inl rfl
    | some events => exact .inr (h events rfl)

/-! ## Reading linked items -/

theorem stored_of_forall {slot : Nat} (h : ∀ n (hn : n < events.length),
    slotEvent keys item (slot + n) = .ok events[n]) : Stored keys item slot events := by
  induction events generalizing slot with
  | nil => trivial
  | cons event events ih =>
    refine ⟨h 0 (Nat.zero_lt_succ _), ih fun n hn => ?_⟩
    rw [Nat.add_right_comm]
    exact h (n + 1) (Nat.succ_lt_succ hn)

theorem foldEvents_ok {σ : Type} {visit : σ → Nat → Event → Outcome (Visit σ)}
    (hvisit : ∀ state slot event, ∃ next, visit state slot event = .ok next) (events : List Event)
    (slot : Nat) (state : σ) : ∃ last, foldEvents visit events slot state = .ok last := by
  induction events generalizing slot state with
  | nil => exact ⟨state, rfl⟩
  | cons event events ih =>
    obtain ⟨next, hnext⟩ := hvisit state slot event
    rw [foldEvents, hnext]
    cases next with
    | stop last => exact ⟨last, rfl⟩
    | next state => exact ih (slot + 1) state

theorem view_ok {σ : Type} (hversion : version keys item = .ok events.length)
    (hstored : Stored keys item 0 events) {f : σ → Event → Outcome (Visit σ)}
    (hf : ∀ state event, ∃ next, f state event = .ok next) (first : Nat) (init : σ) :
    ∃ folded, view keys item first init f = .ok folded := by
  have hvisit : ∀ state slot event, ∃ next, view.visit f state slot event = .ok next := by
    intro state slot event
    obtain ⟨next, hnext⟩ := hf state.1 event
    rw [view.visit, hnext]
    cases next <;> exact ⟨_, rfl⟩
  rcases Nat.le_total first events.length with hle | hge
  · rw [view_eq_foldEvents hversion hstored hle]
    exact foldEvents_ok hvisit _ _ _
  · rw [view, hversion]
    change ∃ folded, foldSlots keys item _ (events.length - first) first _ = _
    rw [Nat.sub_eq_zero_of_le hge]
    exact ⟨_, rfl⟩

namespace Slotted

variable (h : Slotted keys item (some events))

include h

theorem slot_of_lt {i : UInt64} (hi : i.toNat < events.length) :
    keys.stored? (Key.slot item i) = some (events[i.toNat].kind :: Key.log events[i.toNat].id) := by
  rw [h.slot i]
  change events[i.toNat]?.map _ = _
  rw [List.getElem?_eq_getElem hi]
  rfl

theorem slot_of_ge {i : UInt64} (hi : events.length ≤ i.toNat) :
    keys.stored? (Key.slot item i) = none := by
  rw [h.slot i]
  exact congrArg (Option.map _) (List.getElem?_eq_none hi)

/-- A slot that points at an identity holds the event with that identity. -/
theorem exists_event {i : UInt64} {mark : UInt8} {id : EventId}
    (hi : keys.stored? (Key.slot item i) = some (mark :: Key.log id)) :
    ∃ hlt : i.toNat < events.length, events[i.toNat].id = id := by
  rcases Nat.lt_or_ge i.toNat events.length with hlt | hge
  · rw [h.slot_of_lt hlt] at hi
    exact ⟨hlt, Key.log_injective (List.cons.inj (Option.some.inj hi)).2⟩
  · rw [h.slot_of_ge hge] at hi
    cases hi

theorem stored (hbacked : Backed keys item events) : Stored keys item 0 events := by
  refine stored_of_forall fun n hn => ?_
  rw [Nat.zero_add]
  have hsize : (UInt64.ofNat n).toNat = n :=
    UInt64.toNat_ofNat_of_lt' (hn.trans (isThere_of_version h.version).2)
  obtain ⟨payload, hpayload, hlog⟩ := (hbacked.logged events[n] (List.getElem_mem hn)).2
  have hslot := h.slot_of_lt (i := UInt64.ofNat n) (by rwa [hsize])
  simp only [hsize] at hslot
  exact slotEvent_eq hslot hlog hpayload

end Slotted

/-- Two slots that point at the same entry are the same slot of the same item. -/
theorem Linked.slot_injective {i j : UInt64} {a b : UInt8} {id : EventId} (h : Linked keys item)
    (hother : Linked keys other) (hi : keys.stored? (Key.slot item i) = some (a :: Key.log id))
    (hj : keys.stored? (Key.slot other j) = some (b :: Key.log id)) : other = item ∧ i = j := by
  have hsome : ∀ {item : ItemId} {n : UInt64} {mark : UInt8}, Linked keys item →
      keys.stored? (Key.slot item n) = some (mark :: Key.log id) →
        ∃ events, Slotted keys item (some events) ∧ Backed keys item events := by
    rintro item n mark ⟨stream, hslotted, hbacked⟩ hn
    cases stream with
    | some events => exact ⟨events, hslotted, hbacked events rfl⟩
    | none =>
      rw [hslotted.slot n] at hn
      cases hn
  obtain ⟨events, hslotted, hbacked⟩ := hsome h hi
  obtain ⟨others, hslotted', hbacked'⟩ := hsome hother hj
  obtain ⟨hlt, hid⟩ := hslotted.exists_event hi
  obtain ⟨hlt', hid'⟩ := hslotted'.exists_event hj
  -- the entry has one envelope, which names one item
  obtain ⟨payload, hpayload, hlog⟩ := (hbacked.logged _ (List.getElem_mem hlt)).2
  obtain ⟨payload', hpayload', hlog'⟩ := (hbacked'.logged _ (List.getElem_mem hlt')).2
  rw [hid] at hlog
  rw [hid', hlog, Option.some.injEq, List.cons.injEq] at hlog'
  rw [← hlog'.2] at hpayload'
  have henvelope := (Envelope.decode_encode hpayload').symm.trans (Envelope.decode_encode hpayload)
  obtain rfl : other = item := congrArg Envelope.item (Except.ok.inj henvelope)
  obtain ⟨hlt', hid'⟩ := hslotted.exists_event hj
  have hi' : i.toNat < (events.map Event.id).length := by rwa [List.length_map]
  have hj' : j.toNat < (events.map Event.id).length := by rwa [List.length_map]
  have hsame : (events.map Event.id)[i.toNat] = (events.map Event.id)[j.toNat] := by
    rw [List.getElem_map, List.getElem_map, hid, hid']
  exact ⟨rfl, UInt64.toNat_inj.mp (hbacked.distinct.getElem_inj_iff.mp hsame)⟩

end Item

/-! ## Runs -/

namespace Run

section

variable {clock : Clock} {trace : List Step} {s : Session} {item : ItemId}

theorem linked_of_reached (h : Reached clock trace s) (hclear : Clear trace item) :
    Item.Linked s.keys item := by
  induction h with
  | start => exact Item.linked_empty item
  | abort h hkeys hreadings htaken ih => rw [hkeys]; exact ih hclear
  | @step trace s t op reply h hready hop ih =>
    obtain ⟨stream, hslotted, hbacked⟩ := ih fun step hstep =>
      hclear step (List.mem_append_left _ hstep)
    have hwithin := (Txn.Keeps.writes_of_ok op.writes hop).within
    by_cases hitem : op.item? = some item
    · exact (Op.turned hready hitem hop hslotted).linked hwithin hbacked
    · have hapart : ∀ a, op.item? = some a → a.Apart item := fun a ha =>
        hclear.apart (List.mem_append_right _ List.mem_cons_self) ha fun heq => hitem (heq ▸ ha)
      exact ⟨stream, hslotted.of_apart hapart hop, fun events hevents =>
        (hbacked events hevents).within hwithin⟩

end

/-- An item that is there has at least one event, and its slots are one to one with the entries of
its events in the log: each pointer of a slot below the version names an entry in the partition of
the item, with the mark of the slot and an envelope that names the item, there are no other slots,
and no two slots of this or of another item point at the same entry. So its events can be loaded, and
viewed with any fold that does not fail itself. -/
theorem slots_own_entries (txns : List (List Op)) (clock : Clock) {item : ItemId}
    (hclear : Clear (trace txns clock) item)
    (hlive : Item.isThere (result txns clock) item = .ok true) :
    ∃ n, Item.version (result txns clock) item = .ok n ∧ 0 < n ∧
      (∀ i : UInt64, i.toNat < n → ∃ mark id payload envelope,
        (result txns clock).stored? (Key.slot item i) = some (mark :: Key.log id) ∧
        EventId.decode (Key.log id) = .ok id ∧ id.partition.toNat = item.tag.toNat ∧
        (result txns clock).stored? (Key.log id) = some (mark :: payload) ∧
        Envelope.decode payload = .ok envelope ∧ envelope.item = item) ∧
      (∀ i : UInt64, n ≤ i.toNat → (result txns clock).stored? (Key.slot item i) = none) ∧
      (∀ other, Clear (trace txns clock) other → ∀ i j a b id,
        (result txns clock).stored? (Key.slot item i) = some (a :: Key.log id) →
        (result txns clock).stored? (Key.slot other j) = some (b :: Key.log id) →
          other = item ∧ i = j) ∧
      (∀ first last, ∃ loaded, Item.load (result txns clock) item first last = .ok loaded) ∧
      ∀ {σ : Type} (f : σ → Event → Outcome (Visit σ)) (first : Nat) (init : σ),
        (∀ state event, ∃ next, f state event = .ok next) →
          ∃ folded, Item.view (result txns clock) item first init f = .ok folded := by
  have hreached := reached txns clock
  have hlinked := linked_of_reached hreached hclear
  obtain ⟨stream, hslotted, hbacked⟩ := linked_of_reached hreached hclear
  cases stream with
  | none =>
    have hnone := Item.isThere_of_version?_none hslotted.version?
    rw [show Item.isThere (run txns (.start clock)).2.keys item = .ok true from hlive] at hnone
    cases hnone
  | some events =>
    have hbacked := hbacked events rfl
    have hversion := hslotted.version
    have hstored := hslotted.stored hbacked
    refine ⟨events.length, hversion, List.length_pos_of_ne_nil hbacked.nonempty, fun i hi => ?_,
      fun i hi => hslotted.slot_of_ge hi, fun other hother i j a b id hi hj => ?_,
      fun first last => ⟨_, Item.load_eq hversion hstored first last⟩, fun f first init hf => ?_⟩
    · obtain ⟨howns, payload, hpayload, hlog⟩ := hbacked.logged _ (List.getElem_mem hi)
      exact ⟨_, _, payload, _, hslotted.slot_of_lt hi, EventId.decode_log _, howns, hlog,
        Envelope.decode_encode hpayload, rfl⟩
    · exact hlinked.slot_injective (linked_of_reached hreached hother) hi hj
    · exact Item.view_ok hversion hstored hf first init

/-- The item is created, deleted and created again, with an event of another item and one of no item
in between. -/
def createdAgain : List (List Op) :=
  [[.create ⟨1, [120]⟩, .put ⟨1, [120]⟩ (.entity [] [])], [.delete ⟨1, [120]⟩, .create ⟨1, [121]⟩],
    [.logAt 1 5 (.new 0 []), .create ⟨1, [120]⟩, .addAlias ⟨1, [120]⟩ ⟨2, [97]⟩]]

theorem slots_own_entries_createdAgain :
    Item.version (result createdAgain (.steady 5 0)) ⟨1, [120]⟩ = .ok 2 ∧
      (∃ loaded, Item.load (result createdAgain (.steady 5 0)) ⟨1, [120]⟩ 0 0 = .ok loaded) ∧
      ∃ folded, Item.view (result createdAgain (.steady 5 0)) ⟨1, [120]⟩ 1 0
        (fun count _ => .ok (.next (count + 1))) = .ok folded := by
  have hclear : Clear (trace createdAgain (.steady 5 0)) ⟨1, [120]⟩ :=
    clear_of_length (by simp [createdAgain, Op.item?])
  have hthere : Item.isThere (result createdAgain (.steady 5 0)) ⟨1, [120]⟩ = .ok true :=
    Outcome.eq_ok_of_toOption (by decide +kernel)
  obtain ⟨-, -, -, -, -, -, hload, hview⟩ := slots_own_entries createdAgain (.steady 5 0) hclear hthere
  exact ⟨Outcome.eq_ok_of_toOption (by decide +kernel), hload 0 0,
    hview _ 1 0 fun count _ => ⟨_, rfl⟩⟩

end Run

end Chronicle
