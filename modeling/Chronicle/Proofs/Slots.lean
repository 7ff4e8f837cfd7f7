import Mathlib
import Chronicle.Proofs.Writes

/-!
# Slots

What the slots of an item hold, read through the log, and what becomes of it when an event is
appended or other keys are written. A fold over slots is a fold over the events they hold.
-/
namespace Chronicle.Item

variable {σ : Type} {keys : KeySpace} {item : ItemId}

/-- The slots from `slot` on hold the events. -/
def Stored (keys : KeySpace) (item : ItemId) : Nat → List Event → Prop
  | _, [] => True
  | slot, event :: events => slotEvent keys item slot = .ok event ∧ Stored keys item (slot + 1) events

theorem stored_append {slot : Nat} {xs ys : List Event} : Stored keys item slot (xs ++ ys) ↔
    Stored keys item slot xs ∧ Stored keys item (slot + xs.length) ys := by
  induction xs generalizing slot with
  | nil => simp [Stored]
  | cons x xs ih =>
    simp only [List.cons_append, Stored, ih, List.length_cons, and_assoc]
    rw [Nat.add_right_comm, Nat.add_assoc]

theorem Stored.drop {slot : Nat} {events : List Event} (h : Stored keys item slot events)
    (n : Nat) (hn : n ≤ events.length) : Stored keys item (slot + n) (events.drop n) := by
  rw [← List.take_append_drop n events, stored_append, List.length_take, Nat.min_eq_left hn] at h
  exact h.2

theorem Stored.take {slot : Nat} {events : List Event} (h : Stored keys item slot events)
    (n : Nat) : Stored keys item slot (events.take n) := by
  rw [← List.take_append_drop n events, stored_append] at h
  exact h.1

/-- Slots that read the same hold the same. -/
theorem Stored.transport {other : KeySpace} {slot : Nat} {events : List Event}
    (h : Stored keys item slot events)
    (hslot : ∀ n event, slot ≤ n → n < slot + events.length →
      slotEvent keys item n = .ok event → slotEvent other item n = .ok event) :
    Stored other item slot events := by
  induction events generalizing slot with
  | nil => trivial
  | cons event events ih =>
    rw [List.length_cons] at hslot
    refine ⟨hslot slot event le_rfl (by omega) h.1, ih h.2 fun n e hle hlt => ?_⟩
    exact hslot n e (by omega) (by omega)

/-! ## Folds -/

/-- A fold over slots, given the events they hold. -/
def foldEvents (visit : σ → Nat → Event → Outcome (Visit σ)) :
    List Event → Nat → σ → Outcome σ
  | [], _, state => .ok state
  | event :: events, slot, state => do
    match ← visit state slot event with
    | .stop state => .ok state
    | .next state => foldEvents visit events (slot + 1) state

theorem foldSlots_eq {visit : σ → Nat → Event → Outcome (Visit σ)} {slot : Nat}
    {events : List Event} (h : Stored keys item slot events) (state : σ) :
    foldSlots keys item visit events.length slot state = foldEvents visit events slot state := by
  induction events generalizing slot state with
  | nil => rfl
  | cons event events ih =>
    rw [List.length_cons, foldSlots, foldEvents, h.1]
    show (visit state slot event >>= _) = (visit state slot event >>= _)
    congr 1
    funext next
    cases next with
    | stop state => rfl
    | next state => exact ih h.2 state

/-- The visitor always goes on. -/
def NeverStops (visit : σ → Nat → Event → Outcome (Visit σ)) : Prop :=
  ∀ state slot event last, visit state slot event ≠ .ok (.stop last)

/-- A fold that comes through without a stop has read every slot. -/
theorem stored_of_foldSlots {visit : σ → Nat → Event → Outcome (Visit σ)}
    (hnever : NeverStops visit) {count slot : Nat} {state last : σ}
    (h : foldSlots keys item visit count slot state = .ok last) :
    ∃ events, events.length = count ∧ Stored keys item slot events := by
  induction count generalizing slot state with
  | zero => exact ⟨[], rfl, trivial⟩
  | succ count ih =>
    rw [foldSlots] at h
    obtain ⟨event, hslot, h⟩ := Outcome.bind_eq_ok.mp h
    obtain ⟨next, hvisit, h⟩ := Outcome.bind_eq_ok.mp h
    cases next with
    | stop last => exact absurd hvisit (hnever _ _ _ _)
    | next state =>
      obtain ⟨events, hlength, hstored⟩ := ih h
      exact ⟨event :: events, by rw [List.length_cons, hlength], hslot, hstored⟩

theorem foldEvents_append {visit : σ → Nat → Event → Outcome (Visit σ)} (hnever : NeverStops visit)
    (xs ys : List Event) (slot : Nat) (state : σ) :
    foldEvents visit (xs ++ ys) slot state = (do
      let state ← foldEvents visit xs slot state
      foldEvents visit ys (slot + xs.length) state) := by
  induction xs generalizing slot state with
  | nil => rfl
  | cons x xs ih =>
    rw [List.cons_append, foldEvents, foldEvents, List.length_cons]
    rcases hvisit : visit state slot x with fault | next
    · rfl
    · cases next with
      | stop last => exact absurd hvisit (hnever _ _ _ _)
      | next state =>
        show foldEvents visit (xs ++ ys) (slot + 1) state = _
        rw [ih, Nat.add_right_comm, Nat.add_assoc]
        rfl

end Chronicle.Item

namespace Chronicle

variable {s t : Session} {item : ItemId}

/-! ## Slots under writes -/

theorem Log.get_eq_ok {keys : KeySpace} {id : EventId} {e : LogEvent} :
    Log.get keys id = .ok e ↔ keys.get (Key.log id) = .ok (some ⟨e.mark, e.payload⟩) ∧ e.id = id := by
  unfold Log.get
  constructor
  · intro h
    split at h
    · cases h
      exact ⟨‹_›, rfl⟩
    all_goals cases h
  · rintro ⟨hget, rfl⟩
    rw [hget]

theorem Item.slotEvent_eq_ok {keys : KeySpace} {slot : Nat} {event : Event} :
    slotEvent keys item slot = .ok event ↔ ∃ entry id e,
      keys.get (Key.slot item (UInt64.ofNat slot)) = .ok (some entry) ∧
      EventId.decode entry.value = .ok id ∧ Log.get keys id = .ok e ∧
      ∃ found, e.itemEvent = .ok found ∧ found.event = event := by
  unfold slotEvent
  constructor
  · intro h
    obtain ⟨_ | entry, hentry, h⟩ := Outcome.bind_eq_ok.mp h
    · cases h
    obtain ⟨id, hid, h⟩ := Outcome.bind_eq_ok.mp h
    obtain ⟨e, hlog, h⟩ := Outcome.bind_eq_ok.mp h
    obtain ⟨found, hfound, h⟩ := Outcome.bind_eq_ok.mp h
    exact ⟨entry, id, e, hentry, hid, hlog, found, hfound, Except.ok.inj h⟩
  · rintro ⟨entry, id, e, hentry, hid, hlog, found, hfound, rfl⟩
    simp only [hentry, hid, hlog, hfound, bind, Except.bind, pure, Except.pure]

/-- A slot that reads needs nothing but its key and its entry in the log. -/
theorem Session.Within.slotEvent {F : Bytes → Prop} (h : s.Within F t) {slot : Nat} {event : Event}
    (hkey : t.keys.stored? (Key.slot item (UInt64.ofNat slot)) =
      s.keys.stored? (Key.slot item (UInt64.ofNat slot)))
    (hread : Item.slotEvent s.keys item slot = .ok event) :
    Item.slotEvent t.keys item slot = .ok event := by
  obtain ⟨entry, id, e, hentry, hid, hlog, hevent⟩ := Item.slotEvent_eq_ok.mp hread
  refine Item.slotEvent_eq_ok.mpr ⟨entry, id, e, ?_, hid, ?_, hevent⟩
  · rw [KeySpace.get_congr hkey, hentry]
  · -- the entry of the log is there, since it was read
    have hstored := KeySpace.stored?_of_get (Log.get_eq_ok.mp hlog).1
    refine Log.get_eq_ok.mpr ⟨?_, (Log.get_eq_ok.mp hlog).2⟩
    exact KeySpace.get_eq_some (Key.log_ne_nil id) (h.log hstored)

/-- What a slot reads as when it points at an envelope. -/
theorem Item.slotEvent_eq {keys : KeySpace} {slot : Nat} {event : Event} {id : EventId}
    {mark : UInt8} {payload : Bytes}
    (hslot : keys.stored? (Key.slot item (UInt64.ofNat slot)) = some (mark :: Key.log id))
    (hlog : keys.stored? (Key.log id) = some (event.kind :: payload))
    (hpayload : (Envelope.wrap item event).encode = .ok payload) :
    slotEvent keys item slot = .ok { event with id := id } := by
  have hget : keys.get (Key.log id) = .ok (some ⟨event.kind, payload⟩) :=
    KeySpace.get_eq_some (Key.log_ne_nil _) hlog
  have hentry : keys.get (Key.slot item (UInt64.ofNat slot)) = .ok (some ⟨mark, Key.log id⟩) :=
    KeySpace.get_eq_some (Key.index_ne_nil _ _ _) hslot
  have hread : LogEvent.itemEvent ⟨event.kind, id, payload⟩ =
      .ok ((Envelope.wrap item event).unwrap event.kind id) := LogEvent.itemEvent_of_encode hpayload
  exact slotEvent_eq_ok.mpr ⟨_, id, ⟨event.kind, id, payload⟩, hentry, EventId.decode_log id,
    Log.get_eq_ok.mpr ⟨hget, rfl⟩, _, hread, rfl⟩

/-! ## Versions -/

namespace Item

variable {a b : KeySpace} {n : Nat}

theorem isThere_eq_false_iff : isThere a item = .ok false ↔ a.stored? (Key.version item) = none :=
  KeySpace.contains_eq_false_iff (Key.index_ne_nil _ _ _)

theorem version?_congr (h : a.stored? (Key.version item) = b.stored? (Key.version item)) :
    version? a item = version? b item := by
  unfold version?
  rw [KeySpace.get_congr h]

theorem version?_of_version (h : version a item = .ok n) : version? a item = .ok (some n) := by
  obtain ⟨_ | m, hfound, h⟩ := Outcome.bind_eq_ok.mp h
  · cases h
  · cases h
    exact hfound

/-- A version is the counter under its key. -/
theorem counter_of_version (h : version a item = .ok n) : ∃ entry counter,
    a.get (Key.version item) = .ok (some entry) ∧ Counter.decode entry.value = .ok counter ∧
      counter.toNat = n := by
  obtain ⟨_ | entry, hget, h⟩ := Outcome.bind_eq_ok.mp (version?_of_version h)
  · cases h
  · obtain ⟨counter, hcounter, h⟩ := Outcome.bind_eq_ok.mp h
    cases h
    exact ⟨entry, counter, hget, hcounter, rfl⟩

theorem version_congr (h : a.stored? (Key.version item) = b.stored? (Key.version item)) :
    version a item = version b item := by
  unfold version
  rw [version?_congr h]

theorem listAt_congr {α : Type} [Packed α] {key : Bytes} (h : a.stored? key = b.stored? key) :
    (listAt a key : Outcome (List α)) = listAt b key := by
  unfold listAt
  rw [KeySpace.get_congr h]

theorem version_of_stored (hn : n < Bytes.capacity 8)
    (h : a.stored? (Key.version item) = some (0 :: Counter.encode (UInt64.ofNat n))) :
    version a item = .ok n := by
  have hdecode : Counter.decode (Counter.encode (UInt64.ofNat n)) = .ok (UInt64.ofNat n) := by
    unfold Counter.decode Counter.encode
    rw [if_pos (Bytes.length_bigEndian _ _), Bytes.bigEndianValue_bigEndian,
      Nat.mod_eq_of_lt (Bytes.toNat_lt_capacity_eight _), UInt64.ofNat_toNat]
  have hentry : a.get (Key.version item) = .ok (some ⟨0, Counter.encode (UInt64.ofNat n)⟩) :=
    KeySpace.get_eq_some (Key.index_ne_nil _ _ _) h
  unfold version version?
  rw [hentry]
  simp only [bind, Except.bind, hdecode, pure, Except.pure]
  rw [UInt64.toNat_ofNat_of_lt' hn]

/-- An item with a version is there, and its version is a number of eight bytes. -/
theorem isThere_of_version (h : version a item = .ok n) :
    isThere a item = .ok true ∧ n < Bytes.capacity 8 := by
  obtain ⟨entry, counter, hget, -, rfl⟩ := counter_of_version h
  refine ⟨?_, Bytes.toNat_lt_capacity_eight counter⟩
  rw [isThere, KeySpace.contains, hget]
  rfl

end Item

/-! ## Appending -/

/-- The log of `after` is that of `before` with one entry more, at an identity that was the
least free one of its timestamp. -/
structure Log.Adds (before after : KeySpace) (e : LogEvent) : Prop where
  free : LeastFree before e.id
  entry : after.stored? (Key.log e.id) = some (e.mark :: e.payload)
  others : ∀ id, id ≠ e.id → after.stored? (Key.log id) = before.stored? (Key.log id)

/-- The two logs are the same. -/
def Log.Same (a b : KeySpace) : Prop := ∀ id, b.stored? (Key.log id) = a.stored? (Key.log id)

theorem Log.LeastFree.congr {a b : KeySpace} {id : EventId} (h : LeastFree b id)
    (hsame : Same a b) : LeastFree a id :=
  ⟨(hsame id).symm.trans h.1, fun j hj => by rw [← hsame]; exact h.2 j hj⟩

theorem Log.Adds.after_same {a b c : KeySpace} {e : LogEvent} (h : Adds b c e)
    (hsame : Same a b) : Adds a c e :=
  ⟨h.free.congr hsame, h.entry, fun id hid => (h.others id hid).trans (hsame id)⟩

theorem Log.Adds.before_same {a b c : KeySpace} {e : LogEvent} (h : Adds a b e)
    (hsame : Same b c) : Adds a c e :=
  ⟨h.free, (hsame e.id).trans h.entry, fun id hid => (hsame id).trans (h.others id hid)⟩

theorem Log.Adds.stored?_ne_none {a b : KeySpace} {e : LogEvent} (h : Adds a b e) {id : EventId}
    (hid : a.stored? (Key.log id) ≠ none) : b.stored? (Key.log id) ≠ none := by
  by_cases heq : id = e.id
  · rw [heq, h.entry]
    nofun
  · rwa [h.others id heq]

theorem Session.Within.same_log {F : Bytes → Prop} (h : s.Within F t)
    (hF : ∀ id, ¬ F (Key.log id)) : Log.Same s.keys t.keys := fun id => h.frame (hF id)

/-- The event stands in the log, in an envelope with its item. -/
def Item.Logged (keys : KeySpace) (item : ItemId) (event : Event) : Prop :=
  ∃ payload, (Envelope.wrap item event).encode = .ok payload ∧
    keys.stored? (Key.log event.id) = some (event.kind :: payload)

theorem getElem?_concat {α : Type} (l : List α) (a : α) (n : Nat) :
    (l ++ [a])[n]? = if n = l.length then some a else l[n]? := by
  simpa using (Array.getElem?_push : (l.toArray.push a)[n]? = _)

/-- The item has got one event more, in the slot that was next. -/
structure Item.Extends (item : ItemId) (slot : Nat) (event : Event) (before after : KeySpace) :
    Prop where
  adds : ∃ payload, (Envelope.wrap item event).encode = .ok payload ∧
    Log.Adds before after ⟨event.kind, event.id, payload⟩
  version : version after item = .ok (slot + 1)
  last : slotEvent after item slot = .ok event
  older : ∀ n e, n < slot → slotEvent before item n = .ok e → slotEvent after item n = .ok e

namespace Item

theorem slot_ne_of_lt {m n : Nat} (hmn : m < n) (hn : n < Bytes.capacity 8) :
    Key.slot item (UInt64.ofNat n) ≠ Key.slot item (UInt64.ofNat m) := by
  intro h
  have hslot := Key.sub_injective (x := .slot _) (y := .slot _) h
  rw [SubKey.slot.injEq, ← UInt64.toNat_inj, UInt64.toNat_ofNat_of_lt' hn,
    UInt64.toNat_ofNat_of_lt' (hmn.trans hn)] at hslot
  omega

theorem stored?_slot_recordSlot {slot : Nat} {id : EventId} {kind : UInt8} {v : Unit}
    (h : recordSlot item slot id kind s = .ok v t) (n : UInt64) :
    t.keys.stored? (Key.slot item n) =
      if n.toNat = slot then some (kind :: Key.log id) else s.keys.stored? (Key.slot item n) := by
  obtain ⟨hslot, rfl⟩ := recordSlot_eq_ok h
  have hlast : UInt64.ofNat slot = n ↔ n.toNat = slot := by
    rw [← UInt64.toNat_inj, UInt64.toNat_ofNat_of_lt' (Nat.lt_of_succ_lt hslot), eq_comm]
  change ((s.keys.insert (Key.sub item (.slot _)) _).insert (Key.sub item .version) _).stored?
    (Key.sub item (.slot n)) = _
  simp only [KeySpace.stored?_insert, Key.sub_inj, reduceCtorEq, if_false, SubKey.slot.injEq, hlast]
  rfl

theorem recordSlot_frame {slot : Nat} {id : EventId} {kind : UInt8} {v : Unit}
    (h : recordSlot item slot id kind s = .ok v t) {k : SubKey} (hversion : k ≠ .version)
    (hslot : ∀ n, k ≠ .slot n) :
    t.keys.stored? (Key.sub item k) = s.keys.stored? (Key.sub item k) := by
  obtain ⟨-, rfl⟩ := recordSlot_eq_ok h
  exact (KeySpace.stored?_insert_sub (k := .version) hversion).trans
    (KeySpace.stored?_insert_sub (k := .slot _) (hslot _))

theorem recordSlot_spec {slot : Nat} {id : EventId} {kind : UInt8} {v : Unit}
    (h : recordSlot item slot id kind s = .ok v t) :
    version t.keys item = .ok (slot + 1) ∧
      t.keys.stored? (Key.slot item (UInt64.ofNat slot)) = some (kind :: Key.log id) ∧
      (∀ id, t.keys.stored? (Key.log id) = s.keys.stored? (Key.log id)) ∧
      ∀ n, n < slot → t.keys.stored? (Key.slot item (UInt64.ofNat n)) =
        s.keys.stored? (Key.slot item (UInt64.ofNat n)) := by
  have hstored := stored?_slot_recordSlot h
  obtain ⟨hslot, rfl⟩ := recordSlot_eq_ok h
  have hsize : ∀ n, n ≤ slot → (UInt64.ofNat n).toNat = n := fun n hn =>
    UInt64.toNat_ofNat_of_lt' (hn.trans_lt (Nat.lt_of_succ_lt hslot))
  have hversion_log : ∀ id, Key.version item ≠ Key.log id :=
    fun id => Key.sub_ne_log id item .version
  have hslot_log : ∀ id n, Key.slot item n ≠ Key.log id :=
    fun id n => Key.sub_ne_log id item (.slot n)
  refine ⟨?_, ?_, fun id => ?_, fun n hn => ?_⟩
  · exact version_of_stored hslot (KeySpace.stored?_insert_self _ _ _)
  · rw [hstored, if_pos (hsize slot le_rfl)]
  · rw [KeySpace.stored?_insert_of_ne _ _ (hversion_log id),
      KeySpace.stored?_insert_of_ne _ _ (hslot_log id _)]
  · rw [hstored, hsize n hn.le, if_neg hn.ne]

theorem append_extends {slot : Nat} {event : Event} {v : Unit}
    (h : append item slot event s = .ok v t) :
    ∃ id, Extends item slot { event with id := id } s.keys t.keys := by
  have hwithin := (Txn.Keeps.writes_of_ok
    (writes_append (F := fun _ => True) (fun _ => trivial) fun _ => trivial) h).within
  obtain ⟨partition, payload, id, u, -, hpayload, hput, h⟩ := append_eq_ok h
  obtain ⟨-, -, -, hfree, rfl⟩ := Log.put_eq_ok hput
  obtain ⟨hversion, hslot, hlog, hothers⟩ := recordSlot_spec h
  have hentry : t.keys.stored? (Key.log id) = some (event.kind :: payload) := by
    rw [hlog, KeySpace.stored?_insert_self]
    rfl
  refine ⟨id, ⟨payload, hpayload, hfree, hentry, fun other hother => ?_⟩, hversion,
    slotEvent_eq hslot hentry hpayload, fun n e hn hread => hwithin.slotEvent ?_ hread⟩
  · rw [hlog, KeySpace.stored?_insert_of_ne]
    exact fun heq => hother (Key.log_injective heq).symm
  · exact (hothers n hn).trans
      (KeySpace.stored?_insert_of_ne _ _ (Key.log_ne_sub id item (.slot _)))

/-! ## Operations on their own item -/

/-- The keys beside version, slots and log, which the history of an item does not need. -/
def Aside (item : ItemId) (key : Bytes) : Prop :=
  key = Key.aliases item ∨ (∃ name, key = Key.view item name) ∨ ∃ aliasId, key = Key.pointer aliasId

theorem not_aside_version : ¬ Aside item (Key.version item) := by
  rintro (h | ⟨name, h⟩ | ⟨x, h⟩)
  · exact Key.sub_ne (x := .version) (y := .aliases) nofun h
  · exact Key.sub_ne (x := .version) (y := .view name) nofun h
  · exact Key.sub_ne_pointer item x .version h

theorem not_aside_slot (n : UInt64) : ¬ Aside item (Key.slot item n) := by
  rintro (h | ⟨name, h⟩ | ⟨x, h⟩)
  · exact Key.sub_ne (x := .slot n) (y := .aliases) nofun h
  · exact Key.sub_ne (x := .slot n) (y := .view name) nofun h
  · exact Key.sub_ne_pointer item x (.slot n) h

theorem not_aside_log (id : EventId) : ¬ Aside item (Key.log id) := by
  rintro (h | ⟨name, h⟩ | ⟨x, h⟩)
  · exact Key.log_ne_sub id item .aliases h
  · exact Key.log_ne_sub id item (.view name) h
  · exact Key.log_ne_pointer id x h

theorem Extends.aside {slot : Nat} {event : Event} {a : KeySpace}
    (h : Extends item slot event a s.keys) (hwithin : s.Within (Aside item) t) :
    Extends item slot event a t.keys := by
  obtain ⟨payload, hpayload, hadds⟩ := h.adds
  refine ⟨⟨payload, hpayload, hadds.before_same (hwithin.same_log not_aside_log)⟩, ?_, ?_, ?_⟩
  · rw [version_congr (hwithin.frame not_aside_version)]
    exact h.version
  · exact hwithin.slotEvent (hwithin.frame (not_aside_slot _)) h.last
  · exact fun n e hn hread =>
      hwithin.slotEvent (hwithin.frame (not_aside_slot _)) (h.older n e hn hread)

theorem link_aside {aliasId : ItemId} {v : Unit} (h : link item aliasId s = .ok v t) :
    s.Within (Aside item) t :=
  (Txn.Keeps.writes_of_ok (writes_link (.inr (.inr ⟨aliasId, rfl⟩)) (.inl rfl)) h).within

theorem unlink_aside {aliasId : ItemId} {v : Unit} (h : unlink item aliasId s = .ok v t) :
    s.Within (Aside item) t :=
  (Txn.Keeps.writes_of_ok (writes_unlink (.inr (.inr ⟨aliasId, rfl⟩)) (.inl rfl)) h).within

theorem sync_aside {σ : Type} {name : Bytes} {v : View σ} {initial state : σ}
    (h : sync item name v initial s = .ok state t) : s.Within (Aside item) t :=
  (Txn.Keeps.writes_of_ok
    (writes_sync name v initial fun name => .inr (.inl ⟨name, rfl⟩)) h).within

theorem putNext_extends {event : Event} {slot : Nat} (h : putNext item event s = .ok slot t) :
    version s.keys item = .ok slot ∧
      ∃ id, Extends item slot { event with id := id } s.keys t.keys := by
  obtain ⟨hversion, happend⟩ := putNext_eq_ok.mp h
  exact ⟨hversion, append_extends happend⟩

theorem put_extends {event : Event} {slot : Nat} (h : put item event s = .ok slot t) :
    version s.keys item = .ok slot ∧
      ∃ id, Extends item slot { event with id := id } s.keys t.keys :=
  putNext_extends (put_eq_ok.mp h).2

theorem addAlias_extends {aliasId : ItemId} {v : Unit} (h : addAlias item aliasId s = .ok v t) :
    ∃ slot, version s.keys item = .ok slot ∧ ∃ id, Extends item slot
      { Event.lifecycle .aliased aliasId.encode with id := id } s.keys t.keys := by
  obtain ⟨slot, u, hput, hlink⟩ := addAlias_eq_ok h
  obtain ⟨hversion, id, hextends⟩ := put_extends hput
  exact ⟨slot, hversion, id, hextends.aside (link_aside hlink)⟩

theorem removeAlias_extends {aliasId : ItemId} {v : Unit}
    (h : removeAlias item aliasId s = .ok v t) :
    ∃ slot, version s.keys item = .ok slot ∧ ∃ id, Extends item slot
      { Event.lifecycle .unaliased aliasId.encode with id := id } s.keys t.keys := by
  obtain ⟨slot, u, -, hput, hunlink⟩ := removeAlias_eq_ok h
  obtain ⟨hversion, id, hextends⟩ := put_extends hput
  exact ⟨slot, hversion, id, hextends.aside (unlink_aside hunlink)⟩

theorem create_extends {v : Unit} (h : create item s = .ok v t) :
    isThere s.keys item = .ok false ∧
      ∃ id, Extends item 0 { Event.lifecycle .created [] with id := id } s.keys t.keys := by
  obtain ⟨u, hthere, hinit, happend⟩ := create_eq_ok h
  have hwithin := (Txn.Keeps.writes_of_ok
    (writes_initIndex (F := fun key => ∃ k, key = Key.sub item k) fun k => ⟨k, rfl⟩) hinit).within
  have hsame : Log.Same s.keys u.keys :=
    hwithin.same_log fun id ⟨k, hk⟩ => Key.log_ne_sub id item k hk
  obtain ⟨id, hextends⟩ := append_extends happend
  obtain ⟨payload, hpayload, hadds⟩ := hextends.adds
  exact ⟨hthere, id, ⟨payload, hpayload, hadds.after_same hsame⟩, hextends.version,
    hextends.last, fun n e hn => absurd hn (Nat.not_lt_zero n)⟩

theorem teardown_spec {v : Unit} (h : teardown item s = .ok v t) :
    isThere t.keys item = .ok false ∧ Log.Same s.keys t.keys := by
  have hwithin := (Txn.Keeps.writes_of_ok (writes_teardown
    (F := fun key => (∃ k, key = Key.sub item k) ∨ ∃ x, key = Key.pointer x)
    (fun k => .inl ⟨k, rfl⟩) fun x => .inr ⟨x, rfl⟩) h).within
  refine ⟨?_, hwithin.same_log ?_⟩
  · -- the version goes last
    obtain ⟨_, _, -, h⟩ := Txn.bind_eq_ok.mp h
    obtain ⟨_, _, -, h⟩ := Txn.bind_eq_ok.mp h
    obtain ⟨_, _, -, h⟩ := Txn.bind_eq_ok.mp h
    obtain ⟨_, _, -, h⟩ := Txn.bind_eq_ok.mp h
    obtain ⟨_, _, -, h⟩ := Txn.bind_eq_ok.mp h
    obtain ⟨_, _, -, h⟩ := Txn.bind_eq_ok.mp h
    obtain ⟨_, _, -, h⟩ := Txn.bind_eq_ok.mp h
    obtain ⟨_, u, -, h⟩ := Txn.bind_eq_ok.mp h
    obtain ⟨-, rfl⟩ := Txn.delete_eq_ok.mp h
    exact isThere_eq_false_iff.mpr (KeySpace.stored?_erase_self _ _)
  · rintro id (⟨k, hk⟩ | ⟨x, hx⟩)
    · exact Key.log_ne_sub id item k hk
    · exact Key.log_ne_pointer id x hx

theorem delete_spec {v : Unit} (h : delete item s = .ok v t) :
    isThere t.keys item = .ok false ∧ ∃ slot id payload, version s.keys item = .ok slot ∧
      (Envelope.wrap item (Event.lifecycle .deleted [])).encode = .ok payload ∧
      Log.Adds s.keys t.keys ⟨Kind.system, id, payload⟩ := by
  obtain ⟨slot, u, hput, hteardown⟩ := delete_eq_ok h
  obtain ⟨hversion, id, hextends⟩ := put_extends hput
  obtain ⟨payload, hpayload, hadds⟩ := hextends.adds
  obtain ⟨hthere, hsame⟩ := teardown_spec hteardown
  exact ⟨hthere, slot, id, payload, hversion, hpayload, hadds.before_same hsame⟩

end Item
end Chronicle
