import Mathlib
import Chronicle.Proofs.Documents
import Chronicle.Proofs.WholeRecords
import Chronicle.Payload.Schema

/-!
# Packed values and data schemas

A payload value and a data schema are trees, packed node after node. A tree is read with a depth
that its bytes bound: every level takes the four bytes of its case at least, so no level is out of
reach, and more depth than that makes no difference.
-/
namespace Chronicle

namespace Packed

variable {α β : Type}

instance : LawfulPacked Bool where
  reads_of_pack {b bytes} h := by
    cases h
    cases b <;> exact fun _ => rfl

instance : LawfulPacked Int64 where
  reads_of_pack {n bytes} h := by
    have hpack : pack n.toUInt64 = .ok bytes := h
    exact (reads_of_pack hpack).map

theorem reads_case {index : Nat} (h : index < Bytes.capacity 4) :
    Reads unpackCase (Bytes.littleEndian 4 index) (UInt32.ofNat index) := (reads_readNat h).map

theorem reads_pair {reader : Reader α} {name : String} {x : α} {front back : Bytes}
    (hname : packText name = .ok front) (hx : Reads reader back x) :
    Reads (unpackPair unpackText reader) (front ++ back) (name, x) :=
  (reads_of_packText hname).bind hx.bind_pure

/-- The fields of a node, which stand in order. -/
theorem reads_fields {reader : Reader α} {fields : Fields α} {front back : Bytes}
    (hlength : packLength fields.length = .ok front)
    (hfields : Reads (unpackAll (unpackPair unpackText reader) fields.length) back fields)
    (hordered : fields.Ordered) : Reads (unpackFields reader) (front ++ back) fields := by
  have hread := ((reads_of_packLength hlength).bind hfields).map (f := Fields.ofList)
  rwa [Fields.ofList_of_ordered hordered] at hread

/-- A node is read when what follows its case is, with a depth that still holds it. -/
theorem reads_node {reader : Nat → Reader α} {next : Nat → UInt32 → Reader α}
    (hnode : ∀ d, reader (d + 1) = unpackCase >>= next d) {index depth : Nat} {back : Bytes} {x : α}
    (hindex : index < Bytes.capacity 4)
    (hdepth : (Bytes.littleEndian 4 index ++ back).length ≤ depth)
    (h : ∀ d, back.length ≤ d → Reads (next d (UInt32.ofNat index)) back x) :
    Reads (reader depth) (Bytes.littleEndian 4 index ++ back) x := by
  -- one level down the depth is less by one, and the bytes are fewer by four
  rw [List.length_append, Bytes.length_littleEndian] at hdepth
  obtain ⟨d, rfl⟩ : ∃ d, depth = d + 1 := ⟨depth - 1, by omega⟩
  rw [hnode]
  exact (reads_case hindex).bind (h d (by omega))

/-- A node without content. -/
theorem reads_constant {reader : Nat → Reader α} {next : Nat → UInt32 → Reader α}
    (hnode : ∀ d, reader (d + 1) = unpackCase >>= next d) {index depth : Nat} {packed : Bytes} {x : α}
    (hindex : index < Bytes.capacity 4) (h : packCase index = .ok packed)
    (hdepth : packed.length ≤ depth) (hnext : ∀ d, next d (UInt32.ofNat index) = pure x) :
    Reads (reader depth) packed x := by
  cases h
  rw [← List.append_nil (Bytes.littleEndian 4 index)] at hdepth ⊢
  refine reads_node hnode hindex hdepth fun d _ => ?_
  rw [hnext]
  exact Reads.pure x

/-- A node whose content is no tree. -/
theorem reads_leaf [Packed β] [LawfulPacked β] {reader : Nat → Reader α}
    {next : Nat → UInt32 → Reader α} (hnode : ∀ d, reader (d + 1) = unpackCase >>= next d)
    {index depth : Nat} {packed : Bytes} {f : β → α} {x : β} (hindex : index < Bytes.capacity 4)
    (h : (do return (← packCase index) ++ (← pack x)) = Except.ok packed)
    (hdepth : packed.length ≤ depth) (hnext : ∀ d, next d (UInt32.ofNat index) = f <$> unpack) :
    Reads (reader depth) packed (f x) := by
  obtain ⟨_, back, ⟨⟩, hback, rfl⟩ := bind_append_eq_ok h
  refine reads_node hnode hindex hdepth fun d _ => ?_
  rw [hnext]
  exact (reads_of_pack hback).map

theorem bind_append_four_eq_ok {first second third last : Except Fault Bytes} {bytes : Bytes}
    (h : (do return (← first) ++ (← second) ++ (← third) ++ (← last)) = Except.ok bytes) :
    ∃ a b c d, first = .ok a ∧ second = .ok b ∧ third = .ok c ∧ last = .ok d ∧
      bytes = a ++ (b ++ (c ++ d)) := by
  obtain ⟨a, hfirst, h⟩ := Outcome.bind_eq_ok.mp h
  obtain ⟨b, hsecond, h⟩ := Outcome.bind_eq_ok.mp h
  obtain ⟨c, hthird, h⟩ := Outcome.bind_eq_ok.mp h
  obtain ⟨d, hlast, h⟩ := Outcome.bind_eq_ok.mp h
  refine ⟨a, b, c, d, hfirst, hsecond, hthird, hlast, ?_⟩
  rw [← Except.ok.inj h, List.append_assoc, List.append_assoc]

theorem packs_append_four {first second third last : Except Fault Bytes}
    (hfirst : ∃ a, first = .ok a) (hsecond : ∃ b, second = .ok b) (hthird : ∃ c, third = .ok c)
    (hlast : ∃ d, last = .ok d) :
    ∃ bytes, (do return (← first) ++ (← second) ++ (← third) ++ (← last)) = Except.ok bytes := by
  obtain ⟨a, rfl⟩ := hfirst
  obtain ⟨b, rfl⟩ := hsecond
  obtain ⟨c, rfl⟩ := hthird
  obtain ⟨d, rfl⟩ := hlast
  exact ⟨a ++ b ++ c ++ d, rfl⟩

/-- A tree is read with the depth that the bytes left can hold. -/
theorem extends_of_depth {reader : Nat → Reader α}
    (h : ∀ {d d'}, d ≤ d' → Extends (reader d) (reader d')) :
    Extends (do reader (← get).length) (do reader (← get).length) := by
  intro bytes x rest more hread
  exact h (by simp) bytes x rest more hread

theorem reads_of_depth {reader : Nat → Reader α} {bytes : Bytes} {x : α}
    (h : ∀ depth, bytes.length ≤ depth → Reads (reader depth) bytes x) :
    Reads (do reader (← get).length) bytes x := by
  intro rest
  exact h _ (by simp) rest

end Packed

namespace Payload

open Packed

namespace Value

/-! ## Values -/

theorem extends_unpack {d d' : Nat} (h : d ≤ d') : Extends (unpack d) (unpack d') := by
  induction d generalizing d' with
  | zero => exact extends_throw _ _
  | succ d ih =>
    obtain ⟨d', rfl⟩ : ∃ k, d' = k + 1 := ⟨d' - 1, by omega⟩
    have hinner : Extends (unpack d) (unpack d') := ih (by omega)
    refine Packed.extends_unpack.bind fun index => ?_
    match index.toNat with
    | 0 => exact extends_pure _
    | 1 => exact Packed.extends_unpack.map _
    | 2 => exact Packed.extends_unpack.map _
    | 3 => exact Packed.extends_unpack.map _
    | 4 => exact Packed.extends_unpack.map _
    | 5 => exact Packed.extends_unpack.map _
    | 6 => exact (extends_unpackList hinner).map _
    | 7 => exact (extends_unpackFields hinner).map _
    | 8 => exact (extends_unpackFields hinner).map _
    | _ + 9 => exact extends_throw _ _

mutual

theorem reads_of_pack : ∀ (v : Value) {packed : Bytes}, v.pack = .ok packed → v.Ordered →
    ∀ depth, packed.length ≤ depth → Reads (unpack depth) packed v
  | .null, _, h, _, _, hdepth =>
    reads_constant (fun _ => rfl) (by decide) h hdepth fun _ => rfl
  | .bool b, _, h, _, _, hdepth =>
    reads_leaf (f := bool) (fun _ => rfl) (by decide) h hdepth fun _ => rfl
  | .int n, _, h, _, _, hdepth =>
    reads_leaf (f := int) (fun _ => rfl) (by decide) h hdepth fun _ => rfl
  | .float x, _, h, _, _, hdepth =>
    reads_leaf (f := fun bits => Value.float ⟨bits⟩) (fun _ => rfl) (by decide) h hdepth
      fun _ => rfl
  | .string s, _, h, _, _, hdepth =>
    reads_leaf (f := string) (fun _ => rfl) (by decide) h hdepth fun _ => rfl
  | .bytes b, _, h, _, _, hdepth =>
    reads_leaf (f := bytes) (fun _ => rfl) (by decide) h hdepth fun _ => rfl
  | .array items, _, h, hordered, depth, hdepth => by
    obtain ⟨_, count, back, ⟨⟩, hcount, hback, rfl⟩ := bind_append_append_eq_ok h
    refine reads_node (fun _ => rfl) (by decide) hdepth fun d hd => ?_
    rw [List.length_append] at hd
    have hitems := reads_of_packItems items hback hordered d (by omega)
    exact ((reads_of_packLength hcount).bind hitems).map
  | .map fields, _, h, hordered, depth, hdepth => by
    obtain ⟨_, count, back, ⟨⟩, hcount, hback, rfl⟩ := bind_append_append_eq_ok h
    refine reads_node (fun _ => rfl) (by decide) hdepth fun d hd => ?_
    rw [List.length_append] at hd
    have hfields := reads_of_packFields fields hback hordered.2 d (by omega)
    exact (reads_fields hcount hfields hordered.1).map
  | .record fields, _, h, hordered, depth, hdepth => by
    obtain ⟨_, count, back, ⟨⟩, hcount, hback, rfl⟩ := bind_append_append_eq_ok h
    refine reads_node (fun _ => rfl) (by decide) hdepth fun d hd => ?_
    rw [List.length_append] at hd
    have hfields := reads_of_packFields fields hback hordered.2 d (by omega)
    exact (reads_fields hcount hfields hordered.1).map

theorem reads_of_packItems : ∀ (items : List Value) {packed : Bytes}, packItems items = .ok packed →
    OrderedItems items → ∀ depth, packed.length ≤ depth →
      Reads (unpackAll (unpack depth) items.length) packed items
  | [], _, h, _, _, _ => by
    cases h
    exact Reads.pure _
  | item :: items, _, h, hordered, depth, hdepth => by
    obtain ⟨front, back, hfront, hback, rfl⟩ := bind_append_eq_ok h
    rw [List.length_append] at hdepth
    have hitem := reads_of_pack item hfront hordered.1 depth (by omega)
    have hitems := reads_of_packItems items hback hordered.2 depth (by omega)
    exact hitem.bind hitems.bind_pure

theorem reads_of_packFields : ∀ (fields : List (String × Value)) {packed : Bytes},
    packFields fields = .ok packed → OrderedFields fields → ∀ depth, packed.length ≤ depth →
      Reads (unpackAll (unpackPair unpackText (unpack depth)) fields.length) packed fields
  | [], _, h, _, _, _ => by
    cases h
    exact Reads.pure _
  | (name, value) :: fields, _, h, hordered, depth, hdepth => by
    obtain ⟨front, middle, back, hfront, hmiddle, hback, rfl⟩ := bind_append_append_eq_ok h
    rw [List.length_append, List.length_append] at hdepth
    have hvalue := reads_of_pack value hmiddle hordered.1 depth (by omega)
    have hfields := reads_of_packFields fields hback hordered.2 depth (by omega)
    rw [← List.append_assoc]
    exact (reads_pair hfront hvalue).bind hfields.bind_pure

end

mutual

/-- Every text and every list inside has a length that 64 bits can tell, as it has in memory. -/
def Sized : Value → Prop
  | .string s => (Utf8.encode s).length < Bytes.capacity 8
  | .bytes b => b.length < Bytes.capacity 8
  | .array items => items.length < Bytes.capacity 8 ∧ SizedItems items
  | .map fields => fields.length < Bytes.capacity 8 ∧ SizedFields fields
  | .record fields => fields.length < Bytes.capacity 8 ∧ SizedFields fields
  | _ => True

def SizedItems : List Value → Prop
  | [] => True
  | item :: items => Sized item ∧ SizedItems items

def SizedFields : List (String × Value) → Prop
  | [] => True
  | (name, value) :: fields =>
    (Utf8.encode name).length < Bytes.capacity 8 ∧ Sized value ∧ SizedFields fields

end

mutual

theorem packs : ∀ v : Value, v.Sized → Packs v
  | .null, _ => ⟨_, rfl⟩
  | .bool _, _ => packs_append ⟨_, rfl⟩ ⟨_, rfl⟩
  | .int _, _ => packs_append ⟨_, rfl⟩ ⟨_, rfl⟩
  | .float _, _ => packs_append ⟨_, rfl⟩ ⟨_, rfl⟩
  | .string _, h => packs_append ⟨_, rfl⟩ (packs_text h)
  | .bytes _, h => packs_append ⟨_, rfl⟩ (packs_bytes h)
  | .array items, h => packs_append_append ⟨_, rfl⟩ (packs_length h.1) (packs_items items h.2)
  | .map fields, h => packs_append_append ⟨_, rfl⟩ (packs_length h.1) (packs_fields fields h.2)
  | .record fields, h => packs_append_append ⟨_, rfl⟩ (packs_length h.1) (packs_fields fields h.2)

theorem packs_items : ∀ items : List Value, SizedItems items → ∃ bytes, packItems items = .ok bytes
  | [], _ => ⟨[], rfl⟩
  | item :: items, h => packs_append (packs item h.1) (packs_items items h.2)

theorem packs_fields : ∀ fields : List (String × Value), SizedFields fields →
    ∃ bytes, packFields fields = .ok bytes
  | [], _ => ⟨[], rfl⟩
  | (_, value) :: fields, h =>
    packs_append_append (packs_text h.1) (packs value h.2.1) (packs_fields fields h.2.2)

end

instance : Forward Value where
  extends_unpack := extends_of_depth extends_unpack

theorem readsBack {v : Value} (hordered : v.Ordered) (hsized : v.Sized) : ReadsBack v := by
  obtain ⟨bytes, hpack⟩ := packs v hsized
  exact readsBack_of_reads hpack (reads_of_depth (reads_of_pack v hpack hordered))

end Value

namespace Schema

/-! ## Data schemas -/

theorem extends_unpack {d d' : Nat} (h : d ≤ d') : Extends (unpack d) (unpack d') := by
  induction d generalizing d' with
  | zero => exact extends_throw _ _
  | succ d ih =>
    obtain ⟨d', rfl⟩ : ∃ k, d' = k + 1 := ⟨d' - 1, by omega⟩
    have hinner : Extends (unpack d) (unpack d') := ih (by omega)
    refine Packed.extends_unpack.bind fun index => ?_
    match index.toNat with
    | 0 => exact extends_pure _
    | 1 => exact extends_pure _
    | 2 => exact extends_pure _
    | 3 => exact extends_pure _
    | 4 => exact extends_pure _
    | 5 => exact extends_pure _
    | 6 => exact hinner.map _
    | 7 => exact hinner.map _
    | 8 => exact hinner.map _
    | 9 => exact extends_unpackText.bind fun name => (extends_unpackFields hinner).map _
    | _ + 10 => exact extends_throw _ _

mutual

/-- The fields of every record inside stand in order. -/
def Ordered : Schema → Prop
  | .optional inner => Ordered inner
  | .array inner => Ordered inner
  | .map inner => Ordered inner
  | .record _ fields => Fields.Ordered fields ∧ OrderedFields fields
  | _ => True

def OrderedFields : List (String × Schema) → Prop
  | [] => True
  | (_, schema) :: fields => Ordered schema ∧ OrderedFields fields

end

mutual

theorem reads_of_pack : ∀ (s : Schema) {packed : Bytes}, s.pack = .ok packed → s.Ordered →
    ∀ depth, packed.length ≤ depth → Reads (unpack depth) packed s
  | .null, _, h, _, _, hdepth =>
    reads_constant (fun _ => rfl) (by decide) h hdepth fun _ => rfl
  | .bool, _, h, _, _, hdepth =>
    reads_constant (fun _ => rfl) (by decide) h hdepth fun _ => rfl
  | .int, _, h, _, _, hdepth =>
    reads_constant (fun _ => rfl) (by decide) h hdepth fun _ => rfl
  | .float, _, h, _, _, hdepth =>
    reads_constant (fun _ => rfl) (by decide) h hdepth fun _ => rfl
  | .string, _, h, _, _, hdepth =>
    reads_constant (fun _ => rfl) (by decide) h hdepth fun _ => rfl
  | .bytes, _, h, _, _, hdepth =>
    reads_constant (fun _ => rfl) (by decide) h hdepth fun _ => rfl
  | .optional inner, _, h, hordered, depth, hdepth => by
    obtain ⟨_, back, ⟨⟩, hback, rfl⟩ := bind_append_eq_ok h
    exact reads_node (fun _ => rfl) (by decide) hdepth fun d hd =>
      (reads_of_pack inner hback hordered d hd).map
  | .array inner, _, h, hordered, depth, hdepth => by
    obtain ⟨_, back, ⟨⟩, hback, rfl⟩ := bind_append_eq_ok h
    exact reads_node (fun _ => rfl) (by decide) hdepth fun d hd =>
      (reads_of_pack inner hback hordered d hd).map
  | .map inner, _, h, hordered, depth, hdepth => by
    obtain ⟨_, back, ⟨⟩, hback, rfl⟩ := bind_append_eq_ok h
    exact reads_node (fun _ => rfl) (by decide) hdepth fun d hd =>
      (reads_of_pack inner hback hordered d hd).map
  | .record name fields, _, h, hordered, depth, hdepth => by
    obtain ⟨_, text, count, back, ⟨⟩, htext, hcount, hback, rfl⟩ := bind_append_four_eq_ok h
    refine reads_node (fun _ => rfl) (by decide) hdepth fun d hd => ?_
    rw [List.length_append, List.length_append] at hd
    have hfields := reads_of_packFields fields hback hordered.2 d (by omega)
    exact (reads_of_packText htext).bind (reads_fields hcount hfields hordered.1).map

theorem reads_of_packFields : ∀ (fields : List (String × Schema)) {packed : Bytes},
    packFields fields = .ok packed → OrderedFields fields → ∀ depth, packed.length ≤ depth →
      Reads (unpackAll (unpackPair unpackText (unpack depth)) fields.length) packed fields
  | [], _, h, _, _, _ => by
    cases h
    exact Reads.pure _
  | (name, schema) :: fields, _, h, hordered, depth, hdepth => by
    obtain ⟨front, middle, back, hfront, hmiddle, hback, rfl⟩ := bind_append_append_eq_ok h
    rw [List.length_append, List.length_append] at hdepth
    have hschema := reads_of_pack schema hmiddle hordered.1 depth (by omega)
    have hfields := reads_of_packFields fields hback hordered.2 depth (by omega)
    rw [← List.append_assoc]
    exact (reads_pair hfront hschema).bind hfields.bind_pure

end

mutual

/-- Every name and every list of fields inside has a length that 64 bits can tell. -/
def Sized : Schema → Prop
  | .optional inner => Sized inner
  | .array inner => Sized inner
  | .map inner => Sized inner
  | .record name fields => (Utf8.encode name).length < Bytes.capacity 8 ∧
    fields.length < Bytes.capacity 8 ∧ SizedFields fields
  | _ => True

def SizedFields : List (String × Schema) → Prop
  | [] => True
  | (name, schema) :: fields =>
    (Utf8.encode name).length < Bytes.capacity 8 ∧ Sized schema ∧ SizedFields fields

end

mutual

theorem packs : ∀ s : Schema, s.Sized → Packs s
  | .null, _ => ⟨_, rfl⟩
  | .bool, _ => ⟨_, rfl⟩
  | .int, _ => ⟨_, rfl⟩
  | .float, _ => ⟨_, rfl⟩
  | .string, _ => ⟨_, rfl⟩
  | .bytes, _ => ⟨_, rfl⟩
  | .optional inner, h => packs_append ⟨_, rfl⟩ (packs inner h)
  | .array inner, h => packs_append ⟨_, rfl⟩ (packs inner h)
  | .map inner, h => packs_append ⟨_, rfl⟩ (packs inner h)
  | .record _ fields, h =>
    packs_append_four ⟨_, rfl⟩ (packs_text h.1) (packs_length h.2.1) (packs_fields fields h.2.2)

theorem packs_fields : ∀ fields : List (String × Schema), SizedFields fields →
    ∃ bytes, packFields fields = .ok bytes
  | [], _ => ⟨[], rfl⟩
  | (_, schema) :: fields, h =>
    packs_append_append (packs_text h.1) (packs schema h.2.1) (packs_fields fields h.2.2)

end

instance : Forward Schema where
  extends_unpack := extends_of_depth extends_unpack

theorem readsBack {s : Schema} (hordered : s.Ordered) (hsized : s.Sized) : ReadsBack s := by
  obtain ⟨bytes, hpack⟩ := packs s hsized
  exact readsBack_of_reads hpack (reads_of_depth (reads_of_pack s hpack hordered))

end Schema
end Payload

namespace Packed

/-! ## The records of a store -/

/-- Every record that a store keeps is encoded, is decoded again whatever follows it, and cannot be
decoded when it is cut short. -/
theorem records_read_back :
    (∀ id : EventId, ReadsBack id) ∧
    (∀ id : ItemId, id.name.length < Bytes.capacity 8 → ReadsBack id) ∧
    (∀ ids : List ItemId, ids.length < Bytes.capacity 8 →
      (∀ id ∈ ids, id.name.length < Bytes.capacity 8) → ReadsBack ids) ∧
    (∀ names : List Bytes, names.length < Bytes.capacity 8 →
      (∀ name ∈ names, name.length < Bytes.capacity 8) → ReadsBack names) ∧
    (∀ e : LogEvent, e.payload.length < Bytes.capacity 8 → ReadsBack e) ∧
    (∀ e : Envelope, e.item.name.length < Bytes.capacity 8 →
      e.eventType.length < Bytes.capacity 8 → e.payload.length < Bytes.capacity 8 → ReadsBack e) ∧
    (∀ c : Checkpoint, c.state.length < Bytes.capacity 8 → ReadsBack c) ∧
    (∀ v : Payload.Value, v.Ordered → v.Sized → ReadsBack v) ∧
    ∀ s : Payload.Schema, s.Ordered → s.Sized → ReadsBack s := by
  refine ⟨fun id => readsBack (packs_eventId id), fun id h => readsBack (packs_item h),
    fun ids hlength h => ?_, fun names hlength h => ?_, fun e h => readsBack (packs_logEvent h),
    fun e hitem htype hpayload => readsBack (packs_envelope hitem htype hpayload),
    fun c h => readsBack (packs_checkpoint h), fun v => Payload.Value.readsBack,
    fun s => Payload.Schema.readsBack⟩
  · exact readsBack (packs_list hlength fun id hid => packs_item (h id hid))
  · exact readsBack (packs_list hlength fun name hname => packs_bytes (h name hname))

/-- A map and a record inside an array, with an empty name and a number that is none. -/
def shipment : Payload.Value :=
  .array [.map [("", .float ⟨0x7FF8000000000001⟩), ("a", .record [("é", .string "é")])],
    .record [("items", .array []), ("seal", .bytes [0, 255])], .int (-1), .bool true, .null]

def shipmentSchema : Payload.Schema :=
  .array (.optional (.record "é" [("", .map .float), ("items", .array (.optional .string)),
    ("seal", .record "" [])]))

theorem records_read_back_shipment :
    (shipment.Ordered ∧ shipment.Sized ∧ ReadsBack shipment) ∧
      shipmentSchema.Ordered ∧ shipmentSchema.Sized ∧ ReadsBack shipmentSchema := by
  obtain ⟨-, -, -, -, -, -, -, hvalue, hschema⟩ := records_read_back
  have hordered : shipment.Ordered := by
    simp only [shipment, Payload.Value.Ordered, Payload.Value.OrderedItems,
      Payload.Value.OrderedFields, Fields.Ordered]
    decide +kernel
  have hsized : shipment.Sized := by
    simp only [shipment, Payload.Value.Sized, Payload.Value.SizedItems, Payload.Value.SizedFields]
    decide +kernel
  have hordered' : shipmentSchema.Ordered := by
    simp only [shipmentSchema, Payload.Schema.Ordered, Payload.Schema.OrderedFields, Fields.Ordered]
    decide +kernel
  have hsized' : shipmentSchema.Sized := by
    simp only [shipmentSchema, Payload.Schema.Sized, Payload.Schema.SizedFields]
    decide +kernel
  exact ⟨⟨hordered, hsized, hvalue shipment hordered hsized⟩, hordered', hsized',
    hschema shipmentSchema hordered' hsized'⟩

end Packed
end Chronicle
