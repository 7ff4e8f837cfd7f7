import Mathlib
import Chronicle.Proofs.FreeIndexes
import Chronicle.Proofs.Success
import Chronicle.Proofs.Takeover
import Chronicle.Proofs.WholeRecords

/-!
# Changes in the log

The trip of a registry change: it becomes an event, the event is put into an envelope, appended to
the log under a slot of an item, found again through the slot, taken out of the envelope and read as
a change. What it is read as is the change that it was, and of two changes no part of the trip makes
one. An event of the schema kind that was not written so is refused.
-/
namespace Chronicle

/-! ## Appending -/

/-- What an append of an item needs of the item and of the store: a partition, room for its keys, a
number for the slot, a time, and at that time a free index. -/
structure Item.Ready (item : ItemId) (slot : Nat) (s : Session) : Prop where
  tag : item.tag.toNat < 256
  name : item.name.length + 12 ≤ Txn.keyLimit
  slot : slot + 1 < Bytes.capacity 8
  marked : s.keys.Marked
  clock : s.clock.reading ≤ Clock.limit
  free : ∃ i, s.keys.stored?
    (Key.log ⟨item.tag.toUInt8, UInt64.ofNat s.clock.reading, i⟩) = none

theorem Item.Ready.append {item : ItemId} {slot : Nat} {s : Session} (h : Ready item slot s)
    {event : Event} (htype : event.eventType.length < Bytes.capacity 8)
    (hpayload : event.payload.length < Bytes.capacity 8) :
    ∃ t, Item.append item slot event s = .ok () t := by
  have hlimit : Txn.keyLimit < Bytes.capacity 8 := by decide
  have hname := h.name
  obtain ⟨packed, hpacked⟩ : Packed.Packs (Envelope.wrap item event) :=
    Packed.packs_envelope (by simp only [Envelope.wrap]; omega) htype hpayload
  have hpartition : item.partition = .ok item.tag.toUInt8 := if_pos h.tag
  obtain ⟨id, u, hput⟩ : ∃ id u,
      Log.put item.tag.toUInt8 (.new event.kind packed) s = .ok id u := by
    obtain ⟨i, hi⟩ := h.free
    obtain ⟨j, u, hput⟩ := Log.putAt_of_free (s := { s with clock := s.clock.tick }) h.marked hi
      (.new event.kind packed)
    rw [Log.put_eq_putAt, if_pos h.clock]
    exact ⟨_, u, hput⟩
  -- a name that leaves room for the keys of slots leaves room for the version as well
  have hslot : Item.recordSlot item slot id event.kind u =
      .ok () { u with keys := u.keys.withSlot item slot id event.kind } :=
    Item.recordSlot_of_length h.name h.slot id event.kind
  refine ⟨{ u with keys := u.keys.withSlot item slot id event.kind }, ?_⟩
  refine Txn.bind_eq_ok.mpr ⟨_, s, Txn.lift_eq_ok.mpr ⟨hpartition, rfl⟩, ?_⟩
  refine Txn.bind_eq_ok.mpr ⟨packed, s, Txn.lift_eq_ok.mpr ⟨record_of_pack hpacked, rfl⟩, ?_⟩
  exact Txn.bind_eq_ok.mpr ⟨id, u, hput, hslot⟩

namespace Change

/-! ## Writing changes -/

/-- How many bytes the names and the schema take. -/
def size : Change → Nat
  | .entityCreated name | .entityDeleted name => (Utf8.encode name).length
  | .eventCreated entity name schema | .eventUpdated entity name schema =>
    (Utf8.encode entity).length + (Utf8.encode name).length + schema.length
  | .eventDeleted entity name => (Utf8.encode entity).length + (Utf8.encode name).length

theorem record_entity {name : String} (h : (Utf8.encode name).length < Bytes.capacity 8) :
    ∃ bytes, record (EntityRecord.mk name) = .ok bytes ∧
      bytes.length = (Utf8.encode name).length + 8 := by
  refine ⟨_, record_of_pack (Packed.pack_text h), ?_⟩
  rw [List.length_append, Bytes.length_littleEndian, Nat.add_comm]

theorem record_event {entity name : String} {schema : Bytes}
    (h : (Utf8.encode entity).length + (Utf8.encode name).length + schema.length < Bytes.capacity 8) :
    ∃ bytes, record (EventRecord.mk entity name schema) = .ok bytes ∧ bytes.length =
      (Utf8.encode entity).length + (Utf8.encode name).length + schema.length + 24 := by
  have hpack : Packed.pack (EventRecord.mk entity name schema) = .ok
      (Bytes.littleEndian 8 (Utf8.encode entity).length ++ Utf8.encode entity ++
        (Bytes.littleEndian 8 (Utf8.encode name).length ++ Utf8.encode name) ++
        (Bytes.littleEndian 8 schema.length ++ schema)) := by
    change (do return (← Packed.pack entity) ++ (← Packed.pack name) ++ (← Packed.pack schema)) = _
    rw [Packed.pack_text (by omega), Packed.pack_text (by omega), Packed.pack_bytes (by omega)]
    rfl
  refine ⟨_, record_of_pack hpack, ?_⟩
  simp only [List.length_append, Bytes.length_littleEndian]
  omega

/-- The event types with a record of one name. -/
def entityTypes : List Bytes := [entityCreatedType, entityDeletedType]

/-- The event types with a record of two names and a schema. -/
def eventTypes : List Bytes := [eventCreatedType, eventUpdatedType, eventDeletedType]

theorem length_lt_of_mem_types {eventType : Bytes} (h : eventType ∈ entityTypes ++ eventTypes) :
    eventType.length < Bytes.capacity 8 := by
  have hall : ∀ x ∈ entityTypes ++ eventTypes, x.length < Bytes.capacity 8 := by decide
  exact hall eventType h

theorem exists_new {outcome : Outcome Bytes} {eventType bytes : Bytes} {n : Nat}
    (hrecord : outcome = .ok bytes) (hlength : bytes.length ≤ n)
    (htype : eventType ∈ entityTypes ++ eventTypes) :
    ∃ event, (do return Event.new Kind.schema eventType (← outcome)) = Except.ok event ∧
      event.eventType.length < Bytes.capacity 8 ∧ event.payload.length ≤ n := by
  subst hrecord
  exact ⟨_, rfl, length_lt_of_mem_types htype, hlength⟩

/-- A change becomes an event whose payload is its names, its schema and their lengths. -/
theorem exists_toEvent {c : Change} (h : c.size < Bytes.capacity 8) :
    ∃ event, c.toEvent = .ok event ∧ event.eventType.length < Bytes.capacity 8 ∧
      event.payload.length ≤ c.size + 24 := by
  cases c with
  | entityCreated name =>
    obtain ⟨bytes, hrecord, hlength⟩ := record_entity h
    exact exists_new hrecord (by simp only [size]; omega) (by decide)
  | entityDeleted name =>
    obtain ⟨bytes, hrecord, hlength⟩ := record_entity h
    exact exists_new hrecord (by simp only [size]; omega) (by decide)
  | eventCreated entity name schema =>
    obtain ⟨bytes, hrecord, hlength⟩ := record_event h
    exact exists_new hrecord hlength.le (by decide)
  | eventUpdated entity name schema =>
    obtain ⟨bytes, hrecord, hlength⟩ := record_event h
    exact exists_new hrecord hlength.le (by decide)
  | eventDeleted entity name =>
    have hsize : (Utf8.encode entity).length + (Utf8.encode name).length + ([] : Bytes).length <
        Bytes.capacity 8 := h
    obtain ⟨bytes, hrecord, hlength⟩ := record_event hsize
    exact exists_new hrecord hlength.le (by decide)

/-! ## Reading changes -/

/-- The identity of an event says nothing about its change. -/
theorem ofEvent_congr {e e' : Event} (hkind : e.kind = e'.kind) (htype : e.eventType = e'.eventType)
    (hpayload : e.payload = e'.payload) : ofEvent e = ofEvent e' := by
  rw [ofEvent, ofEvent, hkind, htype, hpayload]

theorem not_mem_eventTypes {eventType : Bytes} (h : eventType ∈ entityTypes) :
    eventType ∉ eventTypes := by
  have hall : ∀ x ∈ entityTypes, x ∉ eventTypes := by decide
  exact hall eventType h

variable {e : Event}

/-- What comes of a payload that is read as a record: a change, or a fault when it is no such
record. -/
def RecordRead (α : Type) [Packed α] (payload : Bytes) (outcome : Outcome (Option Change)) : Prop :=
  outcome ≠ .ok none ∧ ((∃ fault, outcome = .error fault) ↔ ∀ r : α, Packed.decode payload ≠ .ok r)

theorem recordRead_of_recorded {α : Type} [Packed α] (payload : Bytes) (f : α → Change) :
    RecordRead α payload (do return some (f (← recorded payload))) := by
  unfold RecordRead
  cases hdecode : (Packed.decode payload : Except Packed.Fault α) with
  | error fault => simp [recorded, hdecode, Except.mapError]
  | ok r => simp [recorded, hdecode, Except.mapError]

theorem recordRead_entity (payload : Bytes) (f : String → Change) :
    RecordRead EntityRecord payload (readEntity payload f) :=
  recordRead_of_recorded payload fun r : EntityRecord => f r.name

theorem recordRead_event (payload : Bytes) (f : String → String → Bytes → Change) :
    RecordRead EventRecord payload (readEvent payload f) :=
  recordRead_of_recorded payload fun r : EventRecord => f r.entity r.name r.schema

theorem recordRead_of_mem_entityTypes (hkind : e.kind = Kind.schema)
    (h : e.eventType ∈ entityTypes) : RecordRead EntityRecord e.payload (ofEvent e) := by
  simp only [entityTypes, List.mem_cons, List.not_mem_nil, or_false] at h
  rw [ofEvent, if_neg (not_not.mpr hkind)]
  rcases h with h | h
  · rw [if_pos h]
    exact recordRead_entity _ _
  · rw [h, if_neg (by decide), if_pos rfl]
    exact recordRead_entity _ _

theorem recordRead_of_mem_eventTypes (hkind : e.kind = Kind.schema)
    (h : e.eventType ∈ eventTypes) : RecordRead EventRecord e.payload (ofEvent e) := by
  simp only [eventTypes, List.mem_cons, List.not_mem_nil, or_false] at h
  rw [ofEvent, if_neg (not_not.mpr hkind)]
  rcases h with h | h | h
  · rw [h, if_neg (by decide), if_neg (by decide), if_pos rfl]
    exact recordRead_event _ _
  · rw [h, if_neg (by decide), if_neg (by decide), if_neg (by decide), if_pos rfl]
    exact recordRead_event _ _
  · rw [h, if_neg (by decide), if_neg (by decide), if_neg (by decide), if_neg (by decide), if_pos rfl]
    exact recordRead_event _ _

theorem ofEvent_of_unknown (hkind : e.kind = Kind.schema)
    (h : e.eventType ∉ entityTypes ++ eventTypes) :
    ofEvent e = .error (.unknownRecord e.eventType) := by
  simp only [entityTypes, eventTypes, List.cons_append, List.nil_append, List.mem_cons,
    List.not_mem_nil, or_false, not_or] at h
  obtain ⟨hcreated, hdeleted, heventCreated, hupdated, heventDeleted⟩ := h
  rw [ofEvent, if_neg (not_not.mpr hkind), if_neg hcreated, if_neg hdeleted, if_neg heventCreated,
    if_neg hupdated, if_neg heventDeleted]

theorem ofEvent_eq_none_iff : ofEvent e = .ok none ↔ e.kind ≠ Kind.schema := by
  refine ⟨fun h hkind => ?_, fun h => if_pos h⟩
  by_cases htype : e.eventType ∈ entityTypes ++ eventTypes
  · rcases List.mem_append.mp htype with hentity | hevent
    · exact (recordRead_of_mem_entityTypes hkind hentity).1 h
    · exact (recordRead_of_mem_eventTypes hkind hevent).1 h
  · rw [ofEvent_of_unknown hkind htype] at h
    cases h

/-- An event of the schema kind is refused when its type is none of the five, or when its payload is
no record of that type. -/
theorem ofEvent_eq_error_iff (hkind : e.kind = Kind.schema) :
    (∃ fault, ofEvent e = .error fault) ↔
      e.eventType ∉ entityTypes ++ eventTypes ∨
      (e.eventType ∈ entityTypes ∧ ∀ r : EntityRecord, Packed.decode e.payload ≠ .ok r) ∨
      (e.eventType ∈ eventTypes ∧ ∀ r : EventRecord, Packed.decode e.payload ≠ .ok r) := by
  by_cases htype : e.eventType ∈ entityTypes ++ eventTypes
  · rcases List.mem_append.mp htype with hentity | hevent
    · rw [(recordRead_of_mem_entityTypes hkind hentity).2]
      simp [hentity, not_mem_eventTypes hentity]
    · have hentity : e.eventType ∉ entityTypes := fun h => not_mem_eventTypes h hevent
      rw [(recordRead_of_mem_eventTypes hkind hevent).2]
      simp [hentity, hevent]
  · exact iff_of_true ⟨_, ofEvent_of_unknown hkind htype⟩ (.inl htype)

/-! ## The trip -/

theorem eq_of_toEvent {c c' : Change} {event event' : Event} (hevent : c.toEvent = .ok event)
    (hevent' : c'.toEvent = .ok event') (htype : event.eventType = event'.eventType)
    (hpayload : event.payload = event'.payload) : c = c' := by
  have hkind : event.kind = event'.kind :=
    (kind_of_toEvent hevent).trans (kind_of_toEvent hevent').symm
  have hsame := ofEvent_congr hkind htype hpayload
  rw [ofEvent_toEvent hevent, ofEvent_toEvent hevent'] at hsame
  exact Option.some.inj (Except.ok.inj hsame)

/-- Of its envelope an event has its type and its payload, whatever the item. -/
theorem eq_of_envelope {item item' : ItemId} {event event' : Event} {payload : Bytes}
    (h : (Envelope.wrap item event).encode = .ok payload)
    (h' : (Envelope.wrap item' event').encode = .ok payload) :
    event.eventType = event'.eventType ∧ event.payload = event'.payload := by
  have hsame : Envelope.wrap item event = Envelope.wrap item' event' := by
    have hdecode := Envelope.decode_encode h
    rw [Envelope.decode_encode h'] at hdecode
    exact (Except.ok.inj hdecode).symm
  rw [Envelope.wrap, Envelope.wrap, Envelope.mk.injEq] at hsame
  exact hsame.2

theorem slotEvent_of_append {item : ItemId} {slot : Nat} {event : Event} {s t : Session}
    (h : Item.append item slot event s = .ok () t) :
    ∃ id, s.keys.stored? (Key.log id) = none ∧ ∀ (F : Bytes → Prop) (u : Session), t.Within F u →
      ¬ F (Key.slot item (UInt64.ofNat slot)) →
        Item.slotEvent u.keys item slot = .ok { event with id := id } := by
  obtain ⟨id, hextends⟩ := Item.append_extends h
  obtain ⟨payload, -, hadds⟩ := hextends.adds
  exact ⟨id, hadds.free.1, fun F u hwithin hF => hwithin.slotEvent (hwithin.frame hF) hextends.last⟩

/-- A change whose parts fit in memory becomes an event that is read as the change. For every item
the event can be appended under a slot, and once that is done it is found through the slot, there and
after any writes elsewhere, and is still read as the change. Different changes are stored differently,
in the envelopes of whatever items. An event of another kind holds no change, and one of the schema
kind is refused exactly when its type is none of the five or its payload is no record of its type. -/
theorem survives_log :
    (∀ c : Change, c.size + 24 < Bytes.capacity 8 →
      ∃ event, c.toEvent = .ok event ∧ ofEvent event = .ok (some c) ∧
        ∀ item slot s, (Item.Ready item slot s → ∃ t, Item.append item slot event s = .ok () t) ∧
          ∀ t, Item.append item slot event s = .ok () t →
            ∃ found : Event, s.keys.stored? (Key.log found.id) = none ∧
              ofEvent found = .ok (some c) ∧
              ∀ (F : Bytes → Prop) (u : Session), t.Within F u →
                ¬ F (Key.slot item (UInt64.ofNat slot)) →
                  Item.slotEvent u.keys item slot = .ok found) ∧
    (∀ (c c' : Change) (event event' : Event), c ≠ c' → c.toEvent = .ok event →
      c'.toEvent = .ok event' →
        (event.eventType, event.payload) ≠ (event'.eventType, event'.payload) ∧
        ∀ item item' payload payload', (Envelope.wrap item event).encode = .ok payload →
          (Envelope.wrap item' event').encode = .ok payload' → payload ≠ payload') ∧
    ∀ e : Event, (ofEvent e = .ok none ↔ e.kind ≠ Kind.schema) ∧
      (e.kind = Kind.schema → ((∃ fault, ofEvent e = .error fault) ↔
        e.eventType ∉ entityTypes ++ eventTypes ∨
        (e.eventType ∈ entityTypes ∧ ∀ r : EntityRecord, Packed.decode e.payload ≠ .ok r) ∨
        (e.eventType ∈ eventTypes ∧ ∀ r : EventRecord, Packed.decode e.payload ≠ .ok r))) := by
  refine ⟨fun c hsize => ?_, fun c c' event event' hne hevent hevent' => ⟨?_, ?_⟩,
    fun e => ⟨ofEvent_eq_none_iff, ofEvent_eq_error_iff⟩⟩
  · obtain ⟨event, hevent, htype, hpayload⟩ := exists_toEvent (c := c) (by omega)
    have hread := ofEvent_toEvent hevent
    refine ⟨event, hevent, hread, fun item slot s => ⟨fun hready => ?_, fun t happend => ?_⟩⟩
    · exact hready.append htype (by omega)
    · obtain ⟨id, hfree, hfound⟩ := slotEvent_of_append happend
      exact ⟨{ event with id := id }, hfree, hread, hfound⟩
  · intro hsame
    rw [Prod.mk.injEq] at hsame
    exact hne (eq_of_toEvent hevent hevent' hsame.1 hsame.2)
  · rintro item item' payload _ hpayload hpayload' rfl
    obtain ⟨htype, hsame⟩ := eq_of_envelope hpayload hpayload'
    exact hne (eq_of_toEvent hevent hevent' htype hsame)

/-- An update with an empty schema and a deletion have the same payload; they differ in their type. -/
def update : Change := .eventUpdated "é" "" []

def deletion : Change := .eventDeleted "é" ""

def journal : ItemId := ⟨7, [120]⟩

theorem ready_journal : Item.Ready journal 0 (.start (.steady 5 1)) where
  tag := by decide
  name := by decide
  slot := by decide
  marked _ := by simp [Session.start]
  clock := by decide
  free := ⟨0, KeySpace.stored?_empty _⟩

theorem survives_log_update :
    update.size + 24 < Bytes.capacity 8 ∧ Item.Ready journal 0 (.start (.steady 5 1)) ∧
      ∃ event t found, update.toEvent = .ok event ∧
        Item.append journal 0 event (.start (.steady 5 1)) = .ok () t ∧
        Item.slotEvent t.keys journal 0 = .ok found ∧ ofEvent found = .ok (some update) ∧
        ∀ event', deletion.toEvent = .ok event' →
          (event.eventType, event.payload) ≠ (event'.eventType, event'.payload) := by
  obtain ⟨htrip, hdiffer, -⟩ := survives_log
  have hsize : update.size + 24 < Bytes.capacity 8 := by decide
  obtain ⟨event, hevent, -, hrest⟩ := htrip update hsize
  obtain ⟨happends, hfinds⟩ := hrest journal 0 (.start (.steady 5 1))
  obtain ⟨t, happend⟩ := happends ready_journal
  obtain ⟨found, -, hread, hslot⟩ := hfinds t happend
  have hfound := hslot (fun _ => False) t (.refl t) id
  refine ⟨hsize, ready_journal, event, t, found, hevent, happend, hfound, hread, fun event' h => ?_⟩
  exact (hdiffer update deletion event event' (by decide) hevent h).1

end Change
end Chronicle
