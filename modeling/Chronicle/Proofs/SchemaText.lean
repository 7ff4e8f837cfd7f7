import Mathlib
import Chronicle.Payload.SchemaText
import Chronicle.Proofs.PackedRecords

/-!
# Data schemas read back

The text of a data schema is an object inside an object for every schema inside another one, and
a reader goes only so deep. Up to there a schema is read as the one that was written: the members
that say which case it is are told apart from fields and records of the same names by where they
stand, and the fields of a record are written in order, so that none takes another's place.
-/
namespace Chronicle

namespace Json.Term

mutual

/-- How deep arrays and objects are nested. -/
def nesting : Term → Nat
  | .array items => nestingItems items + 1
  | .object members => nestingMembers members + 1
  | _ => 0

def nestingItems : List Term → Nat
  | [] => 0
  | item :: items => max (nesting item) (nestingItems items)

def nestingMembers : List (Bytes × Term) → Nat
  | [] => 0
  | (_, value) :: members => max (nesting value) (nestingMembers members)

end

end Json.Term

namespace Payload.Schema

open Json (Term)

mutual

/-- How deep the objects in the text of a schema are nested. A record takes three of them: its own,
that of its name and fields, and that of the fields. -/
def nesting : Schema → Nat
  | .optional inner => nesting inner + 1
  | .array inner => nesting inner + 1
  | .map inner => nesting inner + 1
  | .record _ fields => nestingFields fields + 3
  | _ => 0

def nestingFields : List (String × Schema) → Nat
  | [] => 0
  | (_, schema) :: fields => max (nesting schema) (nestingFields fields)

end

/-! ## Terms -/

/-- The names of the members that are not a record's own fields. -/
def memberNames : List String := ["Optional", "Array", "Map", "Record", "name", "fields"]

theorem write_member : ∀ name ∈ memberNames, Json.Quoted.write name = Utf8.encode name := by
  decide

theorem closed_member {name : String} (h : name ∈ memberNames) :
    Json.Quoted.Closed (Utf8.encode name) := by
  rw [← write_member name h]
  exact Json.Quoted.closed_write name

theorem read?_member {name : String} (h : name ∈ memberNames) :
    Json.Quoted.read? (Utf8.encode name) = some name := by
  rw [← write_member name h]
  exact Json.Quoted.read?_write name

mutual

theorem printable_term : ∀ s : Schema, s.term.Printable
  | .null => Json.Quoted.closed_write _
  | .bool => Json.Quoted.closed_write _
  | .int => Json.Quoted.closed_write _
  | .float => Json.Quoted.closed_write _
  | .string => Json.Quoted.closed_write _
  | .bytes => Json.Quoted.closed_write _
  | .optional inner => ⟨closed_member (by decide), printable_term inner, trivial⟩
  | .array inner => ⟨closed_member (by decide), printable_term inner, trivial⟩
  | .map inner => ⟨closed_member (by decide), printable_term inner, trivial⟩
  | .record name fields =>
    ⟨closed_member (by decide), ⟨closed_member (by decide), Json.Quoted.closed_write name,
      closed_member (by decide), printable_fieldTerms fields, trivial⟩, trivial⟩

theorem printable_fieldTerms : ∀ fields : List (String × Schema),
    Term.PrintableMembers (fieldTerms fields)
  | [] => trivial
  | (name, schema) :: fields =>
    ⟨Json.Quoted.closed_write name, printable_term schema, printable_fieldTerms fields⟩

end

mutual

theorem nesting_term : ∀ s : Schema, s.term.nesting = s.nesting
  | .null => rfl
  | .bool => rfl
  | .int => rfl
  | .float => rfl
  | .string => rfl
  | .bytes => rfl
  | .optional inner => by
    simp [term, nesting, Term.nesting, Term.nestingMembers, nesting_term inner]
  | .array inner => by
    simp [term, nesting, Term.nesting, Term.nestingMembers, nesting_term inner]
  | .map inner => by
    simp [term, nesting, Term.nesting, Term.nestingMembers, nesting_term inner]
  | .record name fields => by
    simp [term, nesting, Term.text, Term.nesting, Term.nestingMembers,
      nestingMembers_fieldTerms fields]

theorem nestingMembers_fieldTerms : ∀ fields : List (String × Schema),
    Term.nestingMembers (fieldTerms fields) = nestingFields fields
  | [] => rfl
  | (name, schema) :: fields => by
    simp [fieldTerms, nestingFields, Term.nestingMembers, nesting_term schema,
      nestingMembers_fieldTerms fields]

end

/-! ## Reading -/

theorem ofTerm?_text {name : String} {s : Schema} (h : plain? name = some s) (depth : Nat) :
    ofTerm? depth (Term.text name) = some s := by
  cases depth <;> simp [Term.text, ofTerm?, Json.Quoted.read?_write, h]

/-- A schema around another one takes one level. -/
theorem ofTerm?_wrapped {name : String} {wrap : Schema → Schema} {inner : Schema}
    (hname : name ∈ memberNames) (hplain : plain? name = none) (hwrap : wrapper? name = some wrap)
    (hinner : ∀ depth : Nat,
      ofTerm? depth inner.term = if inner.nesting ≤ depth then some inner else none) (depth : Nat) :
    ofTerm? depth (.object [(Utf8.encode name, inner.term)]) =
      if inner.nesting + 1 ≤ depth then some (wrap inner) else none := by
  cases depth with
  | zero => simp [ofTerm?]
  | succ depth =>
    simp only [ofTerm?, read?_member hname, hplain, hwrap, hinner, Nat.add_le_add_iff_right,
      Option.bind_eq_bind, Option.bind_some]
    split_ifs <;> simp

theorem named?_fieldTerms (fields : List (String × Schema)) :
    Term.named? (fieldTerms fields) = some (fields.map fun field => (field.1, field.2.term)) := by
  induction fields with
  | nil => rfl
  | cons field fields ih =>
    unfold Term.named? at ih ⊢
    simp only [bind, pure] at ih
    simp [fieldTerms, List.mapM_cons, Json.Quoted.read?_write, ih]

theorem recordParts?_term (name : String) (fields : List (Bytes × Term)) :
    recordParts? (.object [(Utf8.encode "name", Term.text name),
      (Utf8.encode "fields", .object fields)]) = some (Term.text name, .object fields) := by
  have hname : Json.Quoted.read? (Utf8.encode "name") = some "name" := read?_member (by decide)
  have hfields : Json.Quoted.read? (Utf8.encode "fields") = some "fields" := read?_member (by decide)
  simp [recordParts?, Term.named?, hname, hfields, single?, Term.allNamed]

/-- The fields of a record, each read with `depth` levels. -/
def readFields? (depth : Nat) (members : List (String × Term)) : Option (List (String × Schema)) :=
  members.mapM fun member => do return (member.1, ← ofTerm? depth member.2)

theorem ofTerm?_record {fields : List (String × Schema)} (hordered : Fields.Ordered fields)
    (hfields : ∀ depth : Nat, readFields? depth (fields.map fun field => (field.1, field.2.term)) =
      if nestingFields fields ≤ depth then some fields else none) (name : String) (depth : Nat) :
    ofTerm? depth (record name fields).term =
      if nestingFields fields + 3 ≤ depth then some (record name fields) else none := by
  have hkey : Json.Quoted.read? (Utf8.encode "Record") = some "Record" := read?_member (by decide)
  have hname : (Term.text name).string? = some name := Json.Quoted.read?_write name
  -- with fewer than three levels the objects of the record itself are too deep
  match depth with
  | 0 => simp [term, ofTerm?]
  | 1 => simp [term, ofTerm?, hkey, plain?, wrapper?]
  | 2 => simp [term, ofTerm?, hkey, plain?, wrapper?]
  | depth + 3 =>
    have hread : ofTerm? (depth + 3) (record name fields).term =
        (readFields? depth (fields.map fun field => (field.1, field.2.term))).map fun found =>
          record name (Fields.ofList found) := by
      simp [term, ofTerm?, hkey, plain?, wrapper?, recordParts?_term, hname, named?_fieldTerms,
        readFields?, Option.map_eq_bind, Function.comp_def]
    rw [hread, hfields]
    simp only [Nat.add_le_add_iff_right]
    split_ifs
    · simp [Fields.ofList_of_ordered hordered]
    · rfl

mutual

/-- A schema is read from its term when as many levels are allowed as the term nests. -/
theorem ofTerm?_term : ∀ (s : Schema), s.Ordered → ∀ depth : Nat,
    ofTerm? depth s.term = if s.nesting ≤ depth then some s else none
  | .null, _, depth => ofTerm?_text rfl depth
  | .bool, _, depth => ofTerm?_text rfl depth
  | .int, _, depth => ofTerm?_text rfl depth
  | .float, _, depth => ofTerm?_text rfl depth
  | .string, _, depth => ofTerm?_text rfl depth
  | .bytes, _, depth => ofTerm?_text rfl depth
  | .optional inner, h, depth => ofTerm?_wrapped (by decide) rfl rfl (ofTerm?_term inner h) depth
  | .array inner, h, depth => ofTerm?_wrapped (by decide) rfl rfl (ofTerm?_term inner h) depth
  | .map inner, h, depth => ofTerm?_wrapped (by decide) rfl rfl (ofTerm?_term inner h) depth
  | .record name fields, h, depth =>
    ofTerm?_record h.1 (readFields?_fieldTerms fields h.2) name depth

theorem readFields?_fieldTerms : ∀ (fields : List (String × Schema)), OrderedFields fields →
    ∀ depth : Nat, readFields? depth (fields.map fun field => (field.1, field.2.term)) =
      if nestingFields fields ≤ depth then some fields else none
  | [], _, depth => by simp [readFields?, nestingFields]
  | (name, schema) :: fields, h, depth => by
    have hschema := ofTerm?_term schema h.1 depth
    have hfields := readFields?_fieldTerms fields h.2 depth
    unfold readFields? at hfields ⊢
    simp only [List.map_cons, List.mapM_cons, hschema, hfields, nestingFields, max_le_iff]
    by_cases hs : schema.nesting ≤ depth <;> by_cases hf : nestingFields fields ≤ depth <;>
      simp [hs, hf]

end

/-- The text of a data schema nests as deep as the schema, with one level for an optional, an array
and a map and three for a record. It is read as the schema it was written for, whatever the names
in it, as long as that is no deeper than a reader goes, and is refused otherwise. -/
theorem text_reads_back (s : Schema) (hordered : s.Ordered) :
    (∃ t, Term.parse? s.write = some t ∧ t.nesting = s.nesting) ∧
      parse? s.write = if s.nesting ≤ Json.nestingLimit then some s else none := by
  have hparse : Term.parse? s.write = some s.term := Term.parse?_write (printable_term s)
  constructor
  · exact ⟨s.term, hparse, nesting_term s⟩
  · rw [parse?, hparse, Option.bind_some, ofTerm?_term s hordered]

/-- Its names are those of cases and members, the empty one, and one that needs escapes. -/
def namesake : Schema :=
  .record "Record" [("", .optional (.record "\\\"\n" [])), ("\u0001\"/", .map (.optional .bytes)),
    ("Null", .null), ("fields", .array (.record "" [("name", .string)])), ("name", .float)]

theorem namesake_reads_back :
    (namesake.Ordered ∧ namesake.nesting = 7 ∧ namesake.nesting ≤ Json.nestingLimit) ∧
      (∃ t, Term.parse? namesake.write = some t ∧ t.nesting = 7) ∧
      parse? namesake.write = some namesake := by
  have hordered : namesake.Ordered := by
    simp only [namesake, Ordered, OrderedFields, Fields.Ordered]
    decide +kernel
  have hlimit : namesake.nesting ≤ Json.nestingLimit := by decide
  have hnesting : namesake.nesting = 7 := by decide
  obtain ⟨hterm, hread⟩ := text_reads_back namesake hordered
  rw [hnesting] at hterm
  rw [if_pos hlimit] at hread
  exact ⟨⟨hordered, hnesting, hlimit⟩, hterm, hread⟩

end Payload.Schema
end Chronicle
