import Mathlib
import Chronicle.Proofs.Payloads

/-!
# Decoded values

A text that is read need not be one that was written: its blanks, the order of its members and
members that occur twice are its own. What a schema makes of it is still a value that the schema
accepts. The value has its fields in order and nests no deeper than the text did, so it can be
written again and read back without another look at its depth.
-/
namespace Chronicle

/-! ## Fields from any list of pairs -/

namespace Fields

variable {α : Type} {fields : Fields α} {name : String} {value : α} {pair : String × α}

theorem mem_insert (h : pair ∈ fields.insert name value) : pair = (name, value) ∨ pair ∈ fields := by
  induction fields with
  | nil => simpa [insert] using h
  | cons field fields ih =>
    obtain ⟨other, old⟩ := field
    unfold insert at h
    cases hcompare : compare name other with
    | lt => simpa [hcompare] using h
    | eq =>
      simp [hcompare] at h
      rcases h with h | h
      · exact .inl h
      · exact .inr (List.mem_cons_of_mem _ h)
    | gt =>
      simp [hcompare] at h
      rcases h with h | h
      · exact .inr (by simp [h])
      · rcases ih h with h | h
        · exact .inl h
        · exact .inr (List.mem_cons_of_mem _ h)

theorem Ordered.insert (h : fields.Ordered) (name : String) (value : α) :
    (fields.insert name value).Ordered := by
  induction fields with
  | nil => simp [Fields.insert, Ordered]
  | cons field fields ih =>
    obtain ⟨other, old⟩ := field
    obtain ⟨hfirst, hrest⟩ := List.pairwise_cons.mp h
    unfold Fields.insert
    cases hcompare : compare name other with
    | lt =>
      have hlt : name < other := compare_lt_iff_lt.mp hcompare
      refine List.pairwise_cons.mpr ⟨?_, h⟩
      intro pair hpair
      rcases List.mem_cons.mp hpair with rfl | hpair
      · exact hlt
      · exact hlt.trans (hfirst pair hpair)
    | eq =>
      obtain rfl : name = other := compare_eq_iff_eq.mp hcompare
      exact List.pairwise_cons.mpr ⟨hfirst, hrest⟩
    | gt =>
      have hgt : other < name := compare_gt_iff_gt.mp hcompare
      refine List.pairwise_cons.mpr ⟨?_, ih hrest⟩
      intro pair hpair
      rcases mem_insert hpair with rfl | hpair
      · exact hgt
      · exact hfirst pair hpair

theorem ordered_ofList (pairs : List (String × α)) : (ofList pairs).Ordered := by
  have hfold : ∀ (pairs : List (String × α)) (fields : Fields α), fields.Ordered →
      (pairs.foldl (fun fields pair => fields.insert pair.1 pair.2) fields).Ordered := by
    intro pairs
    induction pairs with
    | nil => intro fields h; exact h
    | cons pair pairs ih => intro fields h; exact ih _ (h.insert _ _)
  exact hfold pairs [] List.Pairwise.nil

theorem mem_of_mem_ofList {pairs : List (String × α)} (h : pair ∈ ofList pairs) : pair ∈ pairs := by
  have hfold : ∀ (pairs : List (String × α)) (fields : Fields α),
      pair ∈ pairs.foldl (fun fields pair => fields.insert pair.1 pair.2) fields →
        pair ∈ fields ∨ pair ∈ pairs := by
    intro pairs
    induction pairs with
    | nil => intro fields h; exact .inl h
    | cons first pairs ih =>
      intro fields h
      rcases ih _ h with h | h
      · rcases mem_insert h with rfl | h
        · exact .inr List.mem_cons_self
        · exact .inl h
      · exact .inr (List.mem_cons_of_mem _ h)
  simpa using hfold pairs [] h

end Fields

/-! ## Documents that have been read -/

namespace Json

theorem Numeral.fits_of_int? {n : Numeral} {i : Int} (h : n.int? = some i) : Fits i := by
  unfold int? largestWord at h
  unfold Fits
  split_ifs at h <;> simp at h <;> omega

namespace Document

theorem plainFields_iff {fields : List (String × Document)} :
    PlainFields fields ↔ ∀ field ∈ fields, field.2.Plain := by
  induction fields with
  | nil => simp [PlainFields]
  | cons field fields ih => simp [PlainFields, ih]

theorem nestingFields_le_iff {fields : List (String × Document)} {n : Nat} :
    nestingFields fields ≤ n ↔ ∀ field ∈ fields, field.2.nesting ≤ n := by
  induction fields with
  | nil => simp [nestingFields]
  | cons field fields ih => simp [nestingFields, ih]

mutual

/-- A document that has been read is plain, and it nests no deeper than was allowed. -/
theorem plain_of_ofTerm? : ∀ (t : Term) {depth : Nat} {d : Document}, ofTerm? depth t = some d →
    d.Plain ∧ d.nesting ≤ depth
  | .null, _, _, h => by
    cases h
    exact ⟨trivial, Nat.zero_le _⟩
  | .bool _, _, _, h => by
    cases h
    exact ⟨trivial, Nat.zero_le _⟩
  | .number n, _, d, h => by
    simp only [ofTerm?, Numeral.document?] at h
    cases hint : n.int? with
    | some i =>
      simp only [hint, Option.some.injEq] at h
      subst h
      exact ⟨Numeral.fits_of_int? hint, Nat.zero_le _⟩
    | none =>
      simp only [hint, Option.map_eq_some_iff] at h
      obtain ⟨x, -, rfl⟩ := h
      exact ⟨trivial, Nat.zero_le _⟩
  | .string raw, _, d, h => by
    obtain ⟨s, -, rfl⟩ := Option.map_eq_some_iff.mp h
    exact ⟨trivial, Nat.zero_le _⟩
  | .array items, 0, d, h => by simp [ofTerm?] at h
  | .array items, depth + 1, d, h => by
    obtain ⟨ds, hds, rfl⟩ := Option.map_eq_some_iff.mp h
    obtain ⟨hplain, hnesting⟩ := plain_of_ofItems? items hds
    exact ⟨hplain, Nat.succ_le_succ hnesting⟩
  | .object members, 0, d, h => by simp [ofTerm?] at h
  | .object members, depth + 1, d, h => by
    obtain ⟨pairs, hpairs, rfl⟩ := Option.map_eq_some_iff.mp h
    have hall := plain_of_ofMembers? members hpairs
    refine ⟨⟨Fields.ordered_ofList pairs, plainFields_iff.mpr ?_⟩,
      Nat.succ_le_succ (nestingFields_le_iff.mpr ?_)⟩
    · intro field hfield
      exact (hall field (Fields.mem_of_mem_ofList hfield)).1
    · intro field hfield
      exact (hall field (Fields.mem_of_mem_ofList hfield)).2

theorem plain_of_ofItems? : ∀ (items : List Term) {depth : Nat} {ds : List Document},
    ofItems? depth items = some ds → PlainItems ds ∧ nestingItems ds ≤ depth
  | [], _, _, h => by
    cases h
    exact ⟨trivial, Nat.zero_le _⟩
  | item :: items, _, _, h => by
    simp only [ofItems?, Option.bind_eq_bind, Option.bind_eq_some_iff] at h
    obtain ⟨d, hd, ds, hds, h⟩ := h
    cases h
    have hitem := plain_of_ofTerm? item hd
    have hitems := plain_of_ofItems? items hds
    exact ⟨⟨hitem.1, hitems.1⟩, max_le hitem.2 hitems.2⟩

theorem plain_of_ofMembers? : ∀ (members : List (Bytes × Term)) {depth : Nat}
    {pairs : List (String × Document)}, ofMembers? depth members = some pairs →
      ∀ pair ∈ pairs, pair.2.Plain ∧ pair.2.nesting ≤ depth
  | [], _, _, h => by
    cases h
    simp
  | (key, value) :: members, _, _, h => by
    simp only [ofMembers?, Option.bind_eq_bind, Option.bind_eq_some_iff] at h
    obtain ⟨name, -, d, hd, rest, hrest, h⟩ := h
    cases h
    intro pair hpair
    rcases List.mem_cons.mp hpair with rfl | hpair
    · exact plain_of_ofTerm? value hd
    · exact plain_of_ofMembers? members hrest pair hpair

end

end Document
end Json

/-! ## Values of documents -/

namespace Payload

open Json (Document Numeral Term)

/-- What a value has of the document that it was read from, under a schema that accepts it. -/
structure Value.Mirrors (accept : Value → Bool) (d : Document) (v : Value) : Prop where
  accepted : accept v = true
  nesting_le : v.toDocument.nesting ≤ d.nesting
  ordered : d.Plain → v.Ordered

namespace Schema

theorem mirrors_items {accept : Value → Bool} {ds : List Document} {items : List Value}
    (h : List.Forall₂ (Value.Mirrors accept) ds items) :
    items.all accept = true ∧
      Document.nestingItems (Value.itemDocuments items) ≤ Document.nestingItems ds ∧
      (Document.PlainItems ds → Value.OrderedItems items) := by
  induction h with
  | nil => exact ⟨rfl, le_rfl, id⟩
  | cons hitem _ ih =>
    obtain ⟨haccept, hnesting, hordered⟩ := ih
    refine ⟨by simp [hitem.accepted, haccept], ?_, ?_⟩
    · exact max_le_max hitem.nesting_le hnesting
    · intro hplain
      exact ⟨hitem.ordered hplain.1, hordered hplain.2⟩

theorem mirrors_fields (accept : String → Value → Bool) {ds : List (String × Document)}
    {fields : List (String × Value)}
    (h : List.Forall₂ (fun d field => field.1 = d.1 ∧ Value.Mirrors (accept d.1) d.2 field.2)
      ds fields) :
    (fields.all fun field => accept field.1 field.2) = true ∧
      Document.nestingFields (Value.fieldDocuments fields) ≤ Document.nestingFields ds ∧
      (Document.PlainFields ds → Value.OrderedFields fields) ∧
      fields.map Prod.fst = ds.map Prod.fst := by
  induction h with
  | nil => exact ⟨rfl, le_rfl, id, rfl⟩
  | @cons d field ds fields hfield _ ih =>
    obtain ⟨hname, hvalue⟩ := hfield
    obtain ⟨haccept, hnesting, hordered, hnames⟩ := ih
    refine ⟨by simp [hname, hvalue.accepted, haccept], ?_, ?_, by simp [hname, hnames]⟩
    · exact max_le_max hvalue.nesting_le hnesting
    · intro hplain
      exact ⟨hvalue.ordered hplain.1, hordered hplain.2⟩

theorem nestingItems_bytes (bytes : Bytes) :
    Document.nestingItems (bytes.map fun byte => Document.int byte.toNat) = 0 := by
  induction bytes with
  | nil => rfl
  | cons byte bytes ih => simp [Document.nestingItems, Document.nesting, ih]

/-- A value without parts. -/
theorem mirrors_leaf {s : Schema} {d : Document} {v : Value} (haccepts : s.accepts v = true)
    (hnesting : v.toDocument.nesting = 0) (hordered : v.Ordered) : v.Mirrors s.accepts d :=
  ⟨haccepts, by omega, fun _ => hordered⟩

mutual

/-- What a schema reads from a document is a value that the schema accepts, no deeper than the
document, with its fields in the document's order. -/
theorem mirrors_of_valueOf : ∀ (s : Schema) (d : Document) (v : Value), s.valueOf d = .ok v →
    v.Mirrors s.accepts d
  | .null, d, v, h => by
    cases d with
    | null =>
      cases h
      exact mirrors_leaf rfl rfl trivial
    | _ => simp [valueOf] at h
  | .bool, d, v, h => by
    cases d with
    | bool b =>
      cases h
      exact mirrors_leaf rfl rfl trivial
    | _ => simp [valueOf] at h
  | .int, d, v, h => by
    cases d with
    | int n =>
      rw [valueOf] at h
      split_ifs at h
      cases h
      exact mirrors_leaf rfl rfl trivial
    | _ => simp [valueOf] at h
  | .float, d, v, h => by
    have hnesting : ∀ x : Binary64, (Value.float x).toDocument.nesting = 0 := by
      intro x
      unfold Value.toDocument
      split_ifs <;> rfl
    cases d with
    | int n =>
      cases h
      exact mirrors_leaf rfl (hnesting _) trivial
    | float x =>
      cases h
      exact mirrors_leaf rfl (hnesting _) trivial
    | _ => simp [valueOf] at h
  | .string, d, v, h => by
    cases d with
    | string text =>
      cases h
      exact mirrors_leaf rfl rfl trivial
    | _ => simp [valueOf] at h
  | .bytes, d, v, h => by
    cases d with
    | array items =>
      obtain ⟨b, -, rfl⟩ := Outcome.map_eq_ok.mp h
      refine ⟨rfl, ?_, fun _ => trivial⟩
      have hflat : (Value.bytes b).toDocument.nesting = 1 := by
        simp [Value.toDocument, Document.nesting, nestingItems_bytes]
      rw [hflat, Document.nesting]
      exact Nat.le_add_left _ _
    | _ => simp [valueOf] at h
  | .optional inner, d, v, h => by
    by_cases hd : d = .null
    · subst hd
      cases h
      exact mirrors_leaf rfl rfl trivial
    · rw [valueOf_optional hd] at h
      obtain ⟨haccepts, hnesting, hordered⟩ := mirrors_of_valueOf inner d v h
      refine ⟨?_, hnesting, hordered⟩
      by_cases hv : v = .null
      · rw [hv]
        rfl
      · rw [accepts_optional hv]
        exact haccepts
  | .array inner, d, v, h => by
    cases d with
    | array ds =>
      obtain ⟨items, hitems, rfl⟩ := Outcome.map_eq_ok.mp h
      obtain ⟨haccepts, hnesting, hordered⟩ := mirrors_items
        ((Outcome.forall₂_of_mapM hitems).imp fun d v => mirrors_of_valueOf inner d v)
      exact ⟨haccepts, Nat.succ_le_succ hnesting, hordered⟩
    | _ => simp [valueOf] at h
  | .map inner, d, v, h => by
    cases d with
    | object members =>
      obtain ⟨fields, hfields, rfl⟩ := Outcome.map_eq_ok.mp h
      have hread := forall₂_of_mapM_members (f := fun _ => inner.valueOf) hfields
      obtain ⟨haccepts, hnesting, hordered, hnames⟩ := mirrors_fields (fun _ => inner.accepts)
        (hread.imp fun d v hv => ⟨hv.1, mirrors_of_valueOf inner d.2 v.2 hv.2⟩)
      refine ⟨haccepts, Nat.succ_le_succ hnesting, ?_⟩
      intro hplain
      exact ⟨hplain.1.congr hnames, hordered hplain.2⟩
    | _ => simp [valueOf] at h
  | .record name schemas, d, v, h => by
    cases d with
    | object members =>
      obtain ⟨fields, hfields, rfl⟩ := Outcome.map_eq_ok.mp h
      have hread := forall₂_of_mapM_members (f := valueOfField schemas name) hfields
      obtain ⟨haccepts, hnesting, hordered, hnames⟩ := mirrors_fields (acceptsField schemas)
        (hread.imp fun d v hv => ⟨hv.1, mirrors_of_valueOfField schemas name d.1 d.2 v.2 hv.2⟩)
      refine ⟨haccepts, Nat.succ_le_succ hnesting, ?_⟩
      intro hplain
      exact ⟨hplain.1.congr hnames, hordered hplain.2⟩
    | _ => simp [valueOf] at h

theorem mirrors_of_valueOfField : ∀ (schemas : List (String × Schema)) (owner field : String)
    (d : Document) (v : Value), valueOfField schemas owner field d = .ok v →
      v.Mirrors (acceptsField schemas field) d
  | [], _, _, _, _, h => by simp [valueOfField] at h
  | (name, s) :: schemas, owner, field, d, v, h => by
    by_cases hname : name = field
    · simp only [valueOfField, if_pos hname] at h
      obtain ⟨haccepts, hnesting, hordered⟩ := mirrors_of_valueOf s d v h
      exact ⟨by rw [acceptsField, if_pos hname, haccepts], hnesting, hordered⟩
    · simp only [valueOfField, if_neg hname] at h
      obtain ⟨haccepts, hnesting, hordered⟩ :=
        mirrors_of_valueOfField schemas owner field d v h
      exact ⟨by rw [acceptsField, if_neg hname, haccepts], hnesting, hordered⟩

end

/-! ## Storing again -/

theorem decode_eq_ok {s : Schema} {bytes : Bytes} {v : Value} (h : s.decode bytes = .ok v) :
    s.accepts v = true ∧ v.toDocument.nesting ≤ Json.nestingLimit ∧ v.Ordered := by
  unfold decode at h
  cases hparse : Document.parse? bytes with
  | none => simp [hparse] at h
  | some d =>
    simp only [hparse] at h
    obtain ⟨t, -, hread⟩ := Option.bind_eq_some_iff.mp hparse
    obtain ⟨hplain, hdepth⟩ := Document.plain_of_ofTerm? t hread
    have hmirrors := mirrors_of_valueOf s d v h
    exact ⟨hmirrors.accepted, hmirrors.nesting_le.trans hdepth, hmirrors.ordered hplain⟩

/-- Whatever text a schema is given to read, a value that comes out is one that the schema accepts
and encodes. Without floating point numbers inside it is read back from the new text as it is, and
that text never nests too deep. -/
theorem decoded_stored_again (s : Schema) (bytes : Bytes) {v : Value}
    (h : s.decode bytes = .ok v) :
    s.accepts v = true ∧ ∃ stored, s.encode v = .ok stored ∧
      (v.FloatFree → s.decode stored = .ok v) := by
  obtain ⟨haccepts, hnesting, hordered⟩ := decode_eq_ok h
  refine ⟨haccepts, v.toDocument.write, encode_eq_ok_iff.2 ⟨haccepts, rfl⟩, ?_⟩
  intro hfree
  have hkept : v.EveryFloat Binary64.Kept := Value.EveryFloat.imp (fun _ => False.elim) v hfree
  rw [decode_write hordered haccepts hkept, if_pos hnesting]

def crate : Schema :=
  .record "crate" [("label", .optional .string), ("marks", .array (.optional (.optional .bytes))),
    ("sizes", .map .int)]

/-- Its members are out of order, and one of them stands there twice. -/
def crateTerm : Term :=
  .object [(Json.Quoted.write "sizes", .object [(Json.Quoted.write "b", .number (.ofInt 1)),
      (Json.Quoted.write "a", .number (.ofInt (-2)))]),
    (Json.Quoted.write "marks", .bool true),
    (Json.Quoted.write "marks", .array [.array [.number (.ofInt 255)], .null, .array []])]

def crateValue : Value :=
  .record [("marks", .array [.bytes [255], .null, .bytes []]),
    ("sizes", .map [("a", .int (-2)), ("b", .int 1)])]

theorem decode_crateTerm : crate.decode crateTerm.write = .ok crateValue := by
  have hprintable : crateTerm.Printable :=
    ⟨Json.Quoted.closed_write _, ⟨Json.Quoted.closed_write _, Numeral.wellFormed_ofInt _,
      Json.Quoted.closed_write _, Numeral.wellFormed_ofInt _, trivial⟩,
      Json.Quoted.closed_write _, trivial, Json.Quoted.closed_write _,
      ⟨⟨Numeral.wellFormed_ofInt _, trivial⟩, trivial, trivial, trivial⟩, trivial⟩
  have hone : (Numeral.ofInt 1).document? = some (.int 1) :=
    Numeral.document?_ofInt ⟨by decide, by decide⟩
  have hminus : (Numeral.ofInt (-2)).document? = some (.int (-2)) :=
    Numeral.document?_ofInt ⟨by decide, by decide⟩
  have hbyte : (Numeral.ofInt 255).document? = some (.int 255) :=
    Numeral.document?_ofInt ⟨by decide, by decide⟩
  have hmarks : compare "marks" "sizes" = .lt := by decide +kernel
  have hab : compare "a" "b" = .lt := by decide +kernel
  rw [decode, Document.parse?, Term.parse?_write hprintable, Option.bind_some]
  simp [crateTerm, Document.ofTerm?, Document.ofMembers?, Document.ofItems?,
    Json.Quoted.read?_write, hone, hminus, hbyte, Json.nestingLimit, Fields.ofList, Fields.insert,
    hmarks, hab, crate, valueOf, valueOfField, byte?, bind, Except.bind, pure, Except.pure,
    crateValue]

theorem decoded_crate_stored_again :
    crate.decode crateTerm.write = .ok crateValue ∧ crateValue.FloatFree ∧
      crate.accepts crateValue = true ∧ ∃ stored, crate.encode crateValue = .ok stored ∧
        stored ≠ crateTerm.write ∧ crate.decode stored = .ok crateValue := by
  have hfree : crateValue.FloatFree := by
    simp [crateValue, Value.FloatFree, Value.EveryFloat, Value.EveryFloatFields,
      Value.EveryFloatItems]
  obtain ⟨haccepts, stored, hencode, hagain⟩ :=
    decoded_stored_again crate crateTerm.write decode_crateTerm
  have hother : stored ≠ crateTerm.write := by
    rw [← (encode_eq_ok_iff.1 hencode).2]
    decide +kernel
  exact ⟨decode_crateTerm, hfree, haccepts, stored, hencode, hother, hagain hfree⟩

end Schema
end Payload
end Chronicle
