import Mathlib
import Chronicle.Payload.Value
import Chronicle.Proofs.Documents
import Chronicle.Proofs.FloatNumerals

/-!
# Stored values

What comes back of a value whose document has been written and read: the value with null for each
number that is not finite and with each finite number as its numeral is read. Nothing else in it
changes, and none of it does exactly when every number comes back from its numeral.
-/
namespace Chronicle.Payload

open Json (Document)

namespace Value

mutual

/-- Every floating point number inside has the property. -/
def EveryFloat (P : Binary64 → Prop) : Value → Prop
  | .float x => P x
  | .array items => EveryFloatItems P items
  | .map fields => EveryFloatFields P fields
  | .record fields => EveryFloatFields P fields
  | _ => True

def EveryFloatItems (P : Binary64 → Prop) : List Value → Prop
  | [] => True
  | item :: items => EveryFloat P item ∧ EveryFloatItems P items

def EveryFloatFields (P : Binary64 → Prop) : List (String × Value) → Prop
  | [] => True
  | (_, value) :: fields => EveryFloat P value ∧ EveryFloatFields P fields

end

/-- No floating point number inside. -/
def FloatFree (v : Value) : Prop := v.EveryFloat fun _ => False

mutual

/-- What comes back of a stored value: numbers that are not finite have become null, and finite
ones are what their numerals are read as. Nothing when such a numeral is too large. -/
def reread? : Value → Option Value
  | .float x => if x.isFinite then (Json.Numeral.ofFloat x).float?.map .float else some .null
  | .array items => (rereadItems? items).map .array
  | .map fields => (rereadFields? fields).map .map
  | .record fields => (rereadFields? fields).map .record
  | v => some v

def rereadItems? : List Value → Option (List Value)
  | [] => some []
  | item :: items => do
    let item ← reread? item
    let items ← rereadItems? items
    some (item :: items)

def rereadFields? : List (String × Value) → Option (List (String × Value))
  | [] => some []
  | (name, value) :: fields => do
    let value ← reread? value
    let fields ← rereadFields? fields
    some ((name, value) :: fields)

end

mutual

theorem EveryFloat.imp {P Q : Binary64 → Prop} (himp : ∀ x, P x → Q x) : ∀ v : Value,
    v.EveryFloat P → v.EveryFloat Q
  | .null, _ => trivial
  | .bool _, _ => trivial
  | .int _, _ => trivial
  | .float x, h => himp x h
  | .string _, _ => trivial
  | .bytes _, _ => trivial
  | .array items, h => EveryFloatItems.imp himp items h
  | .map fields, h => EveryFloatFields.imp himp fields h
  | .record fields, h => EveryFloatFields.imp himp fields h

theorem EveryFloatItems.imp {P Q : Binary64 → Prop} (himp : ∀ x, P x → Q x) :
    ∀ items : List Value, EveryFloatItems P items → EveryFloatItems Q items
  | [], _ => trivial
  | item :: items, h => ⟨EveryFloat.imp himp item h.1, EveryFloatItems.imp himp items h.2⟩

theorem EveryFloatFields.imp {P Q : Binary64 → Prop} (himp : ∀ x, P x → Q x) :
    ∀ fields : List (String × Value), EveryFloatFields P fields → EveryFloatFields Q fields
  | [], _ => trivial
  | (_, value) :: fields, h =>
    ⟨EveryFloat.imp himp value h.1, EveryFloatFields.imp himp fields h.2⟩

end

mutual

/-- A value comes back as it was exactly when each number inside does. -/
theorem reread?_eq_self_iff : ∀ v : Value, v.reread? = some v ↔ v.EveryFloat Binary64.Kept
  | .null => by simp [reread?, EveryFloat]
  | .bool _ => by simp [reread?, EveryFloat]
  | .int _ => by simp [reread?, EveryFloat]
  | .float x => by
    by_cases hx : x.isFinite <;> simp [reread?, EveryFloat, Binary64.Kept, hx]
  | .string _ => by simp [reread?, EveryFloat]
  | .bytes _ => by simp [reread?, EveryFloat]
  | .array items => by simp [reread?, EveryFloat, ← rereadItems?_eq_self_iff items]
  | .map fields => by simp [reread?, EveryFloat, ← rereadFields?_eq_self_iff fields]
  | .record fields => by simp [reread?, EveryFloat, ← rereadFields?_eq_self_iff fields]

theorem rereadItems?_eq_self_iff : ∀ items : List Value,
    rereadItems? items = some items ↔ EveryFloatItems Binary64.Kept items
  | [] => by simp [rereadItems?, EveryFloatItems]
  | item :: items => by
    simp [rereadItems?, EveryFloatItems, ← reread?_eq_self_iff item,
      ← rereadItems?_eq_self_iff items, Option.bind_eq_some_iff]

theorem rereadFields?_eq_self_iff : ∀ fields : List (String × Value),
    rereadFields? fields = some fields ↔ EveryFloatFields Binary64.Kept fields
  | [] => by simp [rereadFields?, EveryFloatFields]
  | (name, value) :: fields => by
    simp [rereadFields?, EveryFloatFields, ← reread?_eq_self_iff value,
      ← rereadFields?_eq_self_iff fields, Option.bind_eq_some_iff]

end

/-! ## The document of a value -/

theorem fits_int (n : Int64) : Json.Numeral.Fits n.toInt := by
  have hlow := n.le_toInt
  have hhigh := n.toInt_lt
  constructor <;> omega

theorem plainItems_bytes (bytes : Bytes) :
    Document.PlainItems (bytes.map fun byte => Document.int byte.toNat) := by
  induction bytes with
  | nil => exact trivial
  | cons byte bytes ih =>
    have hbyte := byte.toNat_lt
    refine ⟨?_, ih⟩
    constructor <;> omega

theorem map_fst_fieldDocuments (fields : List (String × Value)) :
    (fieldDocuments fields).map Prod.fst = fields.map Prod.fst := by
  induction fields with
  | nil => rfl
  | cons field fields ih => simp [fieldDocuments, ih]

theorem ordered_fieldDocuments {fields : List (String × Value)} (h : Fields.Ordered fields) :
    Fields.Ordered (fieldDocuments fields) :=
  h.congr (map_fst_fieldDocuments fields)

mutual

theorem plain_toDocument : ∀ v : Value, v.Ordered → v.toDocument.Plain
  | .null, _ => trivial
  | .bool _, _ => trivial
  | .int n, _ => fits_int n
  | .float x, _ => by
    unfold toDocument
    split_ifs <;> exact trivial
  | .string _, _ => trivial
  | .bytes b, _ => plainItems_bytes b
  | .array items, h => plain_itemDocuments items h
  | .map fields, h => ⟨ordered_fieldDocuments h.1, plain_fieldDocuments fields h.2⟩
  | .record fields, h => ⟨ordered_fieldDocuments h.1, plain_fieldDocuments fields h.2⟩

theorem plain_itemDocuments : ∀ items : List Value, OrderedItems items →
    Document.PlainItems (itemDocuments items)
  | [], _ => trivial
  | item :: items, h => ⟨plain_toDocument item h.1, plain_itemDocuments items h.2⟩

theorem plain_fieldDocuments : ∀ fields : List (String × Value), OrderedFields fields →
    Document.PlainFields (fieldDocuments fields)
  | [], _ => trivial
  | (_, value) :: fields, h => ⟨plain_toDocument value h.1, plain_fieldDocuments fields h.2⟩

end

theorem toDocument_ne_null {v : Value} (hv : v ≠ .null)
    (hfinite : v.EveryFloat (·.isFinite = true)) : v.toDocument ≠ .null := by
  cases v with
  | null => exact absurd rfl hv
  | float x =>
    have hx : x.isFinite = true := hfinite
    simp [toDocument, hx]
  | _ => simp [toDocument]

theorem rereadItems?_bytes (bytes : Bytes) :
    Document.rereadItems? (bytes.map fun byte => Document.int byte.toNat) =
      some (bytes.map fun byte => Document.int byte.toNat) := by
  induction bytes with
  | nil => rfl
  | cons byte bytes ih => simp [Document.rereadItems?, Document.reread?, ih]

mutual

theorem reread?_toDocument : ∀ v : Value, v.EveryFloat Binary64.Kept →
    v.toDocument.reread? = some v.toDocument
  | .null, _ => rfl
  | .bool _, _ => rfl
  | .int _, _ => rfl
  | .float x, h => by
    obtain ⟨hx, hread⟩ := h
    simp [toDocument, Document.reread?, hx, hread]
  | .string _, _ => rfl
  | .bytes b, _ => by simp [toDocument, Document.reread?, rereadItems?_bytes]
  | .array items, h => by simp [toDocument, Document.reread?, rereadItems?_itemDocuments items h]
  | .map fields, h => by simp [toDocument, Document.reread?, rereadFields?_fieldDocuments fields h]
  | .record fields, h => by
    simp [toDocument, Document.reread?, rereadFields?_fieldDocuments fields h]

theorem rereadItems?_itemDocuments : ∀ items : List Value,
    EveryFloatItems Binary64.Kept items →
      Document.rereadItems? (itemDocuments items) = some (itemDocuments items)
  | [], _ => rfl
  | item :: items, h => by
    simp [itemDocuments, Document.rereadItems?, reread?_toDocument item h.1,
      rereadItems?_itemDocuments items h.2]

theorem rereadFields?_fieldDocuments : ∀ fields : List (String × Value),
    EveryFloatFields Binary64.Kept fields →
      Document.rereadFields? (fieldDocuments fields) = some (fieldDocuments fields)
  | [], _ => rfl
  | (name, value) :: fields, h => by
    simp [fieldDocuments, Document.rereadFields?, reread?_toDocument value h.1,
      rereadFields?_fieldDocuments fields h.2]

end

/-- Only null and numbers that are not finite come back as null. -/
theorem reread?_eq_null {v : Value} (h : v.toDocument.reread? = some .null) :
    v.reread? = some .null := by
  cases v with
  | null => rfl
  | float x =>
    by_cases hx : x.isFinite
    · simp [toDocument, Document.reread?, hx] at h
    · simp [reread?, hx]
  | _ => simp [toDocument, Document.reread?] at h

end Value

end Chronicle.Payload
