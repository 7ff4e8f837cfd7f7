import Mathlib
import Chronicle.Payload.Schema
import Chronicle.Proofs.Outcomes
import Chronicle.Proofs.StoredValues

/-!
# Payloads read back

The text of a payload forgets which case of a value it stands for: bytes look like an array, a
map like a record, a missing option like null. The schema brings the cases back. A value without
floating point numbers is read back as it was when its text nests no deeper than a reader goes,
and otherwise refused. A floating point number may come back as another one, or as null.
-/
namespace Chronicle.Payload

open Json (Document)

namespace Schema

theorem accepts_optional {inner : Schema} {v : Value} (hv : v ≠ .null) :
    accepts (.optional inner) v = accepts inner v := by
  cases v <;> simp_all [accepts]

theorem valueOf_optional {inner : Schema} {d : Document} (hd : d ≠ .null) :
    valueOf (.optional inner) d = valueOf inner d := by
  cases d <;> simp_all [valueOf]

/-! ## Reading a value's own document -/

theorem mapM_byte? (bytes : Bytes) :
    (bytes.map fun byte => Document.int byte.toNat).mapM byte? = .ok bytes := by
  induction bytes with
  | nil => rfl
  | cons byte bytes ih =>
    have hbyte : byte? (.int byte.toNat) = .ok byte := by
      have hlt := byte.toNat_lt
      have hrange : (0 : Int) ≤ (byte.toNat : Int) ∧ (byte.toNat : Int) < 256 := by omega
      simp [byte?, hrange]
    simp [hbyte, ih, bind, Except.bind, pure, Except.pure]

theorem mapM_itemDocuments {accept : Value → Bool} {read : Document → Except Fault Value}
    (hread : ∀ v, accept v = true → v.EveryFloat (·.isFinite = true) → read v.toDocument = .ok v)
    {items : List Value} (haccept : items.all accept = true)
    (hfinite : Value.EveryFloatItems (·.isFinite = true) items) :
    (Value.itemDocuments items).mapM read = .ok items := by
  induction items with
  | nil => rfl
  | cons item items ih =>
    simp only [List.all_cons, Bool.and_eq_true] at haccept
    have hitem := hread item haccept.1 hfinite.1
    have hitems := ih haccept.2 hfinite.2
    simp [Value.itemDocuments, hitem, hitems, bind, Except.bind, pure, Except.pure]

theorem mapM_fieldDocuments {accept : String → Value → Bool}
    {read : String → Document → Except Fault Value}
    (hread : ∀ name v, accept name v = true → v.EveryFloat (·.isFinite = true) →
      read name v.toDocument = .ok v)
    {fields : List (String × Value)} (haccept : (fields.all fun f => accept f.1 f.2) = true)
    (hfinite : Value.EveryFloatFields (·.isFinite = true) fields) :
    ((Value.fieldDocuments fields).mapM fun member => do
      return (member.1, ← read member.1 member.2)) = .ok fields := by
  induction fields with
  | nil => rfl
  | cons field fields ih =>
    obtain ⟨name, v⟩ := field
    simp only [List.all_cons, Bool.and_eq_true] at haccept
    have hfield := hread name v haccept.1 hfinite.1
    have hfields := ih haccept.2 hfinite.2
    simp only [bind, Except.bind, pure, Except.pure] at hfields
    simp [Value.fieldDocuments, hfield, hfields, bind, Except.bind, pure, Except.pure]

mutual

/-- The document of a value with finite numbers is read as the value. -/
theorem valueOf_toDocument : ∀ (s : Schema) (v : Value), s.accepts v = true →
    v.EveryFloat (·.isFinite = true) → s.valueOf v.toDocument = .ok v
  | .null, v, h, _ => by cases v <;> simp_all [accepts, Value.toDocument, valueOf]
  | .bool, v, h, _ => by cases v <;> simp_all [accepts, Value.toDocument, valueOf]
  | .int, v, h, _ => by
    cases v with
    | int n =>
      have hlt := n.toInt_lt
      have hrange : n.toInt < 0x8000000000000000 := by omega
      simp [Value.toDocument, valueOf, hrange]
    | _ => simp [accepts] at h
  | .float, v, h, hfinite => by
    cases v with
    | float x =>
      have hx : x.isFinite = true := hfinite
      simp [Value.toDocument, valueOf, hx]
    | _ => simp [accepts] at h
  | .string, v, h, _ => by cases v <;> simp_all [accepts, Value.toDocument, valueOf]
  | .bytes, v, h, _ => by
    cases v with
    | bytes b =>
      simp only [Value.toDocument, valueOf, mapM_byte?]
      rfl
    | _ => simp [accepts] at h
  | .optional inner, v, h, hfinite => by
    by_cases hv : v = .null
    · rw [hv]
      rfl
    · have hd : v.toDocument ≠ .null := Value.toDocument_ne_null hv hfinite
      rw [accepts_optional hv] at h
      rw [valueOf_optional hd]
      exact valueOf_toDocument inner v h hfinite
  | .array inner, v, h, hfinite => by
    cases v with
    | array items =>
      have hitems := mapM_itemDocuments (valueOf_toDocument inner) h hfinite
      simp only [Value.toDocument, valueOf, hitems]
      rfl
    | _ => simp [accepts] at h
  | .map inner, v, h, hfinite => by
    cases v with
    | map fields =>
      have hfields := mapM_fieldDocuments (fun _ => valueOf_toDocument inner) h hfinite
      simp only [Value.toDocument, valueOf, hfields]
      rfl
    | _ => simp [accepts] at h
  | .record name schemas, v, h, hfinite => by
    cases v with
    | record fields =>
      have hfields := mapM_fieldDocuments (valueOfField_toDocument schemas name) h hfinite
      simp only [Value.toDocument, valueOf, hfields]
      rfl
    | _ => simp [accepts] at h

theorem valueOfField_toDocument : ∀ (schemas : List (String × Schema)) (owner field : String)
    (v : Value), acceptsField schemas field v = true → v.EveryFloat (·.isFinite = true) →
      valueOfField schemas owner field v.toDocument = .ok v
  | [], _, _, _, h, _ => by simp [acceptsField] at h
  | (name, s) :: schemas, owner, field, v, h, hfinite => by
    by_cases hname : name = field
    · simp only [acceptsField, valueOfField, if_pos hname] at h ⊢
      exact valueOf_toDocument s v h hfinite
    · simp only [acceptsField, valueOfField, if_neg hname] at h ⊢
      exact valueOfField_toDocument schemas owner field v h hfinite

end

/-! ## What comes back -/

theorem forall₂_of_mapM_members {f : String → Document → Except Fault Value}
    {members : List (String × Document)} {fields : List (String × Value)}
    (h : (members.mapM fun member => do return (member.1, ← f member.1 member.2)) = .ok fields) :
    List.Forall₂ (fun d field => field.1 = d.1 ∧ f d.1 d.2 = .ok field.2) members fields := by
  refine (Outcome.forall₂_of_mapM h).imp ?_
  intro member field hfield
  obtain ⟨v, hread, hfield⟩ := Outcome.bind_eq_ok.mp hfield
  cases hfield
  exact ⟨rfl, hread⟩

theorem rereadItems?_of_forall₂ {accept : Value → Bool} {read : Document → Except Fault Value}
    (hread : ∀ v d w, accept v = true → v.toDocument.reread? = some d → read d = .ok w →
      v.reread? = some w)
    {items : List Value} {ds : List Document} {ws : List Value}
    (haccept : items.all accept = true)
    (hds : Document.rereadItems? (Value.itemDocuments items) = some ds)
    (hws : List.Forall₂ (fun d w => read d = .ok w) ds ws) : Value.rereadItems? items = some ws := by
  induction items generalizing ds ws with
  | nil =>
    cases hds
    cases hws
    rfl
  | cons item items ih =>
    simp only [Value.itemDocuments, Document.rereadItems?, Option.bind_eq_bind,
      Option.bind_eq_some_iff] at hds
    obtain ⟨d, hd, rest, hrest, hds⟩ := hds
    cases hds
    simp only [List.all_cons, Bool.and_eq_true] at haccept
    cases hws with
    | cons hw htail =>
      simp [Value.rereadItems?, hread item d _ haccept.1 hd hw, ih haccept.2 hrest htail]

theorem rereadFields?_of_forall₂ {accept : String → Value → Bool}
    {read : String → Document → Except Fault Value}
    (hread : ∀ name v d w, accept name v = true → v.toDocument.reread? = some d →
      read name d = .ok w → v.reread? = some w)
    {fields : List (String × Value)} {ds : List (String × Document)} {ws : List (String × Value)}
    (haccept : (fields.all fun f => accept f.1 f.2) = true)
    (hds : Document.rereadFields? (Value.fieldDocuments fields) = some ds)
    (hws : List.Forall₂ (fun d w => w.1 = d.1 ∧ read d.1 d.2 = .ok w.2) ds ws) :
    Value.rereadFields? fields = some ws := by
  induction fields generalizing ds ws with
  | nil =>
    cases hds
    cases hws
    rfl
  | cons field fields ih =>
    obtain ⟨name, v⟩ := field
    simp only [Value.fieldDocuments, Document.rereadFields?, Option.bind_eq_bind,
      Option.bind_eq_some_iff] at hds
    obtain ⟨d, hd, rest, hrest, hds⟩ := hds
    cases hds
    simp only [List.all_cons, Bool.and_eq_true] at haccept
    cases hws with
    | @cons _ w _ _ hw htail =>
      obtain ⟨other, value⟩ := w
      obtain ⟨rfl, hw⟩ := hw
      simp [Value.rereadFields?, hread _ v d value haccept.1 hd hw, ih haccept.2 hrest htail]

/-- A value without floating point numbers comes back as it was. -/
theorem reread?_of_same {s : Schema} {v : Value} {d : Document} {w : Value}
    (hfinite : v.EveryFloat (·.isFinite = true))
    (hsame : v.toDocument.reread? = some v.toDocument) (hv : v.reread? = some v)
    (h : s.accepts v = true) (hd : v.toDocument.reread? = some d) (hw : s.valueOf d = .ok w) :
    v.reread? = some w := by
  obtain rfl : v.toDocument = d := Option.some.inj (hsame.symm.trans hd)
  rw [valueOf_toDocument s v h hfinite] at hw
  rw [hv, Except.ok.inj hw]

mutual

/-- Whatever a value's document is read as after it has been stored is what comes back of the
value. -/
theorem reread?_of_valueOf : ∀ (s : Schema) (v : Value) (d : Document) (w : Value),
    s.accepts v = true → v.toDocument.reread? = some d → s.valueOf d = .ok w →
      v.reread? = some w
  | .null, v, d, w, h, hd, hw => by
    cases v with
    | null => exact reread?_of_same trivial rfl rfl h hd hw
    | _ => simp [accepts] at h
  | .bool, v, d, w, h, hd, hw => by
    cases v with
    | bool b => exact reread?_of_same trivial rfl rfl h hd hw
    | _ => simp [accepts] at h
  | .int, v, d, w, h, hd, hw => by
    cases v with
    | int n => exact reread?_of_same trivial rfl rfl h hd hw
    | _ => simp [accepts] at h
  | .float, v, d, w, h, hd, hw => by
    cases v with
    | float x =>
      by_cases hx : x.isFinite
      · cases hy : (Json.Numeral.ofFloat x).float? with
        | none => simp [Value.toDocument, Document.reread?, hx, hy] at hd
        | some y =>
          obtain rfl : Document.float y = d := by
            simpa [Value.toDocument, Document.reread?, hx, hy] using hd
          cases hw
          simp [Value.reread?, hx, hy]
      · obtain rfl : Document.null = d := by
          simpa [Value.toDocument, Document.reread?, hx] using hd
        cases hw
    | _ => simp [accepts] at h
  | .string, v, d, w, h, hd, hw => by
    cases v with
    | string b => exact reread?_of_same trivial rfl rfl h hd hw
    | _ => simp [accepts] at h
  | .bytes, v, d, w, h, hd, hw => by
    cases v with
    | bytes b =>
      have hsame : (Value.bytes b).toDocument.reread? = some (Value.bytes b).toDocument := by
        simp [Value.toDocument, Document.reread?, Value.rereadItems?_bytes]
      exact reread?_of_same trivial hsame rfl h hd hw
    | _ => simp [accepts] at h
  | .optional inner, v, d, w, h, hd, hw => by
    by_cases hnull : d = .null
    · subst hnull
      cases hw
      exact Value.reread?_eq_null hd
    · have hv : v ≠ .null := by
        rintro rfl
        exact hnull (Option.some.inj hd).symm
      rw [accepts_optional hv] at h
      rw [valueOf_optional hnull] at hw
      exact reread?_of_valueOf inner v d w h hd hw
  | .array inner, v, d, w, h, hd, hw => by
    cases v with
    | array items =>
      simp only [Value.toDocument, Document.reread?, Option.map_eq_some_iff] at hd
      obtain ⟨ds, hds, rfl⟩ := hd
      obtain ⟨ws, hws, rfl⟩ := Outcome.map_eq_ok.mp hw
      have hitems := rereadItems?_of_forall₂ (reread?_of_valueOf inner) h hds (Outcome.forall₂_of_mapM hws)
      simp [Value.reread?, hitems]
    | _ => simp [accepts] at h
  | .map inner, v, d, w, h, hd, hw => by
    cases v with
    | map fields =>
      simp only [Value.toDocument, Document.reread?, Option.map_eq_some_iff] at hd
      obtain ⟨ds, hds, rfl⟩ := hd
      obtain ⟨ws, hws, rfl⟩ := Outcome.map_eq_ok.mp hw
      have hfields := rereadFields?_of_forall₂ (fun _ => reread?_of_valueOf inner) h hds
        (forall₂_of_mapM_members (f := fun _ => inner.valueOf) hws)
      simp [Value.reread?, hfields]
    | _ => simp [accepts] at h
  | .record name schemas, v, d, w, h, hd, hw => by
    cases v with
    | record fields =>
      simp only [Value.toDocument, Document.reread?, Option.map_eq_some_iff] at hd
      obtain ⟨ds, hds, rfl⟩ := hd
      obtain ⟨ws, hws, rfl⟩ := Outcome.map_eq_ok.mp hw
      have hfields := rereadFields?_of_forall₂ (reread?_of_valueOfField schemas name) h hds
        (forall₂_of_mapM_members (f := valueOfField schemas name) hws)
      simp [Value.reread?, hfields]
    | _ => simp [accepts] at h

theorem reread?_of_valueOfField : ∀ (schemas : List (String × Schema)) (owner field : String)
    (v : Value) (d : Document) (w : Value), acceptsField schemas field v = true →
      v.toDocument.reread? = some d → valueOfField schemas owner field d = .ok w →
        v.reread? = some w
  | [], _, _, _, _, _, h, _, _ => by simp [acceptsField] at h
  | (name, s) :: schemas, owner, field, v, d, w, h, hd, hw => by
    by_cases hname : name = field
    · simp only [acceptsField, valueOfField, if_pos hname] at h hw
      exact reread?_of_valueOf s v d w h hd hw
    · simp only [acceptsField, valueOfField, if_neg hname] at h hw
      exact reread?_of_valueOfField schemas owner field v d w h hd hw

end

/-! ## Storing and reading -/

theorem encode_eq_ok_iff {s : Schema} {v : Value} {bytes : Bytes} :
    s.encode v = .ok bytes ↔ s.accepts v = true ∧ v.toDocument.write = bytes := by
  unfold encode
  split_ifs with h <;> simp [h]

/-- A value is read back as it was, as long as its text does not nest too deep. -/
theorem decode_write {s : Schema} {v : Value} (hordered : v.Ordered) (h : s.accepts v = true)
    (hkept : v.EveryFloat Binary64.Kept) :
    s.decode v.toDocument.write =
      if v.toDocument.nesting ≤ Json.nestingLimit then .ok v else .error .malformed := by
  have hfinite := Value.EveryFloat.imp (fun _ hx => hx.1) v hkept
  rw [decode, Document.parse?_write (Value.plain_toDocument v hordered)]
  split_ifs with hnesting
  · rw [Value.reread?_toDocument v hkept]
    exact valueOf_toDocument s v h hfinite
  · rfl

/-- Encoding takes exactly the values that the schema accepts. Without floating point numbers
inside, such a value is read back from its text with all its cases as they were; only a text that
nests deeper than a reader goes is refused. -/
theorem payload_reads_back (s : Schema) (v : Value) (hordered : v.Ordered) (hfree : v.FloatFree) :
    ((∃ bytes, s.encode v = .ok bytes) ↔ s.accepts v = true) ∧
      ∀ bytes, s.encode v = .ok bytes →
        s.decode bytes =
          if v.toDocument.nesting ≤ Json.nestingLimit then .ok v else .error .malformed := by
  constructor
  · simp [encode_eq_ok_iff]
  · intro bytes hbytes
    obtain ⟨haccepts, rfl⟩ := encode_eq_ok_iff.1 hbytes
    have hkept : v.EveryFloat Binary64.Kept := Value.EveryFloat.imp (fun _ hx => hx.elim) v hfree
    exact decode_write hordered haccepts hkept

/-- A record with a missing field, an empty option inside an option, empty containers, a map
beside a record, and text that has to be escaped. -/
def parcelSchema : Schema :=
  .record "parcel" [("id", .int), ("label", .optional (.optional .string)),
    ("note", .optional (.optional .null)),
    ("parts", .map (.array .bytes)), ("size", .optional (.record "size" []))]

def parcel : Value :=
  .record [("label", .string "\"\\\n\x01é"), ("note", .null),
    ("parts", .map [("", .array []), ("a", .array [.bytes [], .bytes [0, 255]])]),
    ("size", .record [])]

theorem parcel_reads_back :
    parcel.Ordered ∧ parcel.FloatFree ∧ parcel.toDocument.nesting ≤ Json.nestingLimit ∧
      ∃ bytes, parcelSchema.encode parcel = .ok bytes ∧
        parcelSchema.decode bytes = .ok parcel := by
  have hordered : parcel.Ordered := by
    simp only [parcel, Value.Ordered, Value.OrderedFields, Value.OrderedItems, Fields.Ordered]
    decide +kernel
  have hfree : parcel.FloatFree := by
    simp [parcel, Value.FloatFree, Value.EveryFloat, Value.EveryFloatFields,
      Value.EveryFloatItems]
  have hnesting : parcel.toDocument.nesting ≤ Json.nestingLimit := by decide
  obtain ⟨hencodes, hdecodes⟩ := payload_reads_back parcelSchema parcel hordered hfree
  obtain ⟨bytes, hbytes⟩ := hencodes.2 (by decide)
  have hdecode := hdecodes bytes hbytes
  rw [if_pos hnesting] at hdecode
  exact ⟨hordered, hfree, hnesting, bytes, hbytes, hdecode⟩

/-- What is read back from the text of a value differs from it in floating point numbers at most:
one that is not finite has become null, a finite one is what its numeral is read as. It is the
value itself exactly when all of them are finite and come back from their numerals, and so
whenever they are finite and short. -/
theorem stored_unchanged_iff (s : Schema) (v : Value) (hordered : v.Ordered) {bytes : Bytes}
    {w : Value} (hencode : s.encode v = .ok bytes) (hdecode : s.decode bytes = .ok w) :
    v.reread? = some w ∧ (w = v ↔ v.EveryFloat Binary64.Kept) ∧
      (v.EveryFloat Binary64.Short → w = v) := by
  obtain ⟨haccepts, rfl⟩ := encode_eq_ok_iff.1 hencode
  have hread : v.reread? = some w := by
    rw [decode, Document.parse?_write (Value.plain_toDocument v hordered)] at hdecode
    split_ifs at hdecode
    cases hd : v.toDocument.reread? with
    | none => simp [hd] at hdecode
    | some d =>
      simp only [hd] at hdecode
      exact reread?_of_valueOf s v d w haccepts hd hdecode
  have hiff : w = v ↔ v.EveryFloat Binary64.Kept := by
    rw [← Value.reread?_eq_self_iff, hread, Option.some_inj]
  refine ⟨hread, hiff, ?_⟩
  intro hshort
  exact hiff.2 (Value.EveryFloat.imp (fun _ hx => hx.kept) v hshort)

def half : Binary64 := ⟨0x3FE0000000000000⟩

def notANumber : Binary64 := ⟨0x7FF8000000000000⟩

/-- Its shortest numeral has seventeen digits. -/
def longNumber : Binary64 := ⟨0x431D27672E8BC13C⟩

theorem float?_half : (Json.Numeral.ofFloat half).float? = some half := by decide +kernel

theorem float?_longNumber :
    (Json.Numeral.ofFloat longNumber).float? = some ⟨0x431D27672E8BC13D⟩ := by
  decide +kernel

/-- Of two optional numbers one is kept and the other comes back as a missing one. -/
theorem half_unchanged_notANumber :
    let s := Schema.array (.optional .float)
    let v := Value.array [.float half, .float notANumber]
    let w := Value.array [.float half, .null]
    (v.Ordered ∧ ∃ bytes, s.encode v = .ok bytes ∧ s.decode bytes = .ok w) ∧
      v.reread? = some w ∧ (w = v ↔ v.EveryFloat Binary64.Kept) ∧
        (v.EveryFloat Binary64.Short → w = v) := by
  intro s v w
  have hordered : v.Ordered := ⟨trivial, trivial, trivial⟩
  have hencode : s.encode v = .ok v.toDocument.write := encode_eq_ok_iff.2 ⟨rfl, rfl⟩
  have hdecode : s.decode v.toDocument.write = .ok w := by
    rw [decode, Document.parse?_write (Value.plain_toDocument v hordered)]
    have hhalf : half.isFinite = true := by decide
    have hnone : notANumber.isFinite = false := by decide
    simp [v, w, s, Value.toDocument, Value.itemDocuments, hhalf, hnone, Document.nesting,
      Document.nestingItems, Json.nestingLimit, Document.reread?, Document.rereadItems?,
      float?_half, valueOf, bind, Except.bind, pure, Except.pure]
  exact ⟨⟨hordered, _, hencode, hdecode⟩, stored_unchanged_iff s v hordered hencode hdecode⟩

/-- A payload can be changed by being stored without any error: a number that is not finite comes
back as a missing option, and a long finite one as its neighbour. -/
theorem stored_changed :
    (∃ bytes w, (Schema.optional .float).encode (.float notANumber) = .ok bytes ∧
      (Schema.optional .float).decode bytes = .ok w ∧ w ≠ .float notANumber) ∧
    (∃ bytes w, Schema.float.encode (.float longNumber) = .ok bytes ∧
      Schema.float.decode bytes = .ok w ∧ w ≠ .float longNumber) := by
  constructor
  · exact ⟨Document.null.write, .null, rfl, rfl, by simp⟩
  · have hfinite : longNumber.isFinite = true := by decide
    have hdecode : Schema.float.decode (Value.float longNumber).toDocument.write =
        .ok (.float ⟨0x431D27672E8BC13D⟩) := by
      rw [decode, Document.parse?_write (Value.plain_toDocument (.float longNumber) trivial)]
      simp [Value.toDocument, hfinite, Document.nesting, Document.reread?, float?_longNumber,
        valueOf]
    exact ⟨_, _, rfl, hdecode, by simp [longNumber]⟩

end Schema
end Chronicle.Payload
