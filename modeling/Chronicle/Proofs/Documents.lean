import Mathlib
import Chronicle.Proofs.Numerals

/-!
# Documents read back

A document is read from its own text when it nests no deeper than the limit. What comes back is
the same document up to its floating point numbers: one that is not finite was written as null,
and of a finite one the numeral is read again, which need not give the same number.
-/
namespace Chronicle

namespace Fields

variable {α : Type}

theorem insert_of_forall_lt {fields : Fields α} {name : String} (value : α)
    (h : ∀ pair ∈ fields, pair.1 < name) :
    fields.insert name value = fields ++ [(name, value)] := by
  induction fields with
  | nil => rfl
  | cons pair fields ih =>
    obtain ⟨other, old⟩ := pair
    have hgt : compare name other = .gt := compare_gt_iff_gt.2 (h (other, old) (by simp))
    have hrest := ih fun pair hpair => h pair (by simp [hpair])
    simp [insert, hgt, hrest]

theorem foldl_insert_of_ordered {pairs fields : Fields α} (h : Ordered (fields ++ pairs)) :
    pairs.foldl (fun fields pair => fields.insert pair.1 pair.2) fields = fields ++ pairs := by
  induction pairs generalizing fields with
  | nil => simp
  | cons pair pairs ih =>
    have hlast : ∀ other ∈ fields, other.1 < pair.1 := by
      intro other hother
      exact (List.pairwise_append.1 h).2.2 other hother pair (by simp)
    rw [List.foldl_cons, insert_of_forall_lt pair.2 hlast, ih (by simpa using h)]
    simp

/-- Fields that stand in order are taken as they are. -/
theorem ofList_of_ordered {pairs : List (String × α)} (h : Ordered pairs) :
    ofList pairs = pairs := by
  have hall : Ordered ([] ++ pairs) := by simpa using h
  exact foldl_insert_of_ordered hall

/-- Whether fields stand in order depends on their names. -/
theorem Ordered.congr {β : Type} {fields : Fields α} {others : Fields β} (h : Ordered fields)
    (hnames : others.map Prod.fst = fields.map Prod.fst) : Ordered others := by
  unfold Ordered at h ⊢
  rw [← List.pairwise_map (f := Prod.fst) (R := (· < ·))] at h ⊢
  rwa [hnames]

end Fields

namespace Json.Document

mutual

/-- How deep arrays and objects are nested. -/
def nesting : Document → Nat
  | .array items => nestingItems items + 1
  | .object fields => nestingFields fields + 1
  | _ => 0

def nestingItems : List Document → Nat
  | [] => 0
  | item :: items => max (nesting item) (nestingItems items)

def nestingFields : List (String × Document) → Nat
  | [] => 0
  | (_, value) :: fields => max (nesting value) (nestingFields fields)

end

mutual

/-- Fields stand in order and whole numbers fit 64 bits, all through the document. -/
def Plain : Document → Prop
  | .int n => Numeral.Fits n
  | .array items => PlainItems items
  | .object fields => Fields.Ordered fields ∧ PlainFields fields
  | _ => True

def PlainItems : List Document → Prop
  | [] => True
  | item :: items => Plain item ∧ PlainItems items

def PlainFields : List (String × Document) → Prop
  | [] => True
  | (_, value) :: fields => Plain value ∧ PlainFields fields

end

mutual

/-- What a document is after its text has been written and read: a number that is not finite has
become null, and a finite one is what its numeral is read as. Nothing when that is too large. -/
def reread? : Document → Option Document
  | .float x => if x.isFinite then (Numeral.ofFloat x).float?.map .float else some .null
  | .array items => (rereadItems? items).map .array
  | .object fields => (rereadFields? fields).map .object
  | d => some d

def rereadItems? : List Document → Option (List Document)
  | [] => some []
  | item :: items => do
    let item ← reread? item
    let items ← rereadItems? items
    some (item :: items)

def rereadFields? : List (String × Document) → Option (List (String × Document))
  | [] => some []
  | (name, value) :: fields => do
    let value ← reread? value
    let fields ← rereadFields? fields
    some ((name, value) :: fields)

end

mutual

theorem printable_toTerm : ∀ d : Document, d.toTerm.Printable
  | .null => trivial
  | .bool _ => trivial
  | .int n => Numeral.wellFormed_ofInt n
  | .float x => by
    unfold toTerm
    split_ifs
    · exact Numeral.wellFormed_ofFloat x
    · exact trivial
  | .string s => Quoted.closed_write s
  | .array items => printable_itemTerms items
  | .object fields => printable_memberTerms fields

theorem printable_itemTerms : ∀ items : List Document, Term.PrintableItems (itemTerms items)
  | [] => trivial
  | item :: items => ⟨printable_toTerm item, printable_itemTerms items⟩

theorem printable_memberTerms : ∀ fields : List (String × Document),
    Term.PrintableMembers (memberTerms fields)
  | [] => trivial
  | (name, value) :: fields =>
    ⟨Quoted.closed_write name, printable_toTerm value, printable_memberTerms fields⟩

end

theorem map_fst_rereadFields? : ∀ {fields fields' : List (String × Document)},
    rereadFields? fields = some fields' → fields'.map Prod.fst = fields.map Prod.fst
  | [], _, h => by cases h; rfl
  | (name, value) :: fields, fields', h => by
    simp only [rereadFields?, Option.bind_eq_bind, Option.bind_eq_some_iff] at h
    obtain ⟨value', -, rest, hrest, hfields⟩ := h
    cases hfields
    simp [map_fst_rereadFields? hrest]

theorem ordered_rereadFields? {fields fields' : List (String × Document)}
    (h : Fields.Ordered fields) (hread : rereadFields? fields = some fields') :
    Fields.Ordered fields' :=
  h.congr (map_fst_rereadFields? hread)

mutual

/-- A document's term is read as far as it nests, and up to its floating point numbers as the
document. -/
theorem ofTerm?_toTerm : ∀ (d : Document), d.Plain → ∀ depth : Nat,
    ofTerm? depth d.toTerm = if d.nesting ≤ depth then d.reread? else none
  | .null, _, depth => by simp [toTerm, ofTerm?, nesting, reread?]
  | .bool b, _, depth => by simp [toTerm, ofTerm?, nesting, reread?]
  | .int n, h, depth => by
    simp [toTerm, ofTerm?, nesting, reread?, Numeral.document?_ofInt h]
  | .float x, _, depth => by
    by_cases hx : x.isFinite
    · simp [toTerm, ofTerm?, nesting, reread?, hx, Numeral.document?_ofFloat]
    · simp [toTerm, ofTerm?, nesting, reread?, hx]
  | .string s, _, depth => by
    simp [toTerm, Term.text, ofTerm?, nesting, reread?, Quoted.read?_write]
  | .array items, h, depth => by
    cases depth with
    | zero => simp [toTerm, ofTerm?, nesting]
    | succ depth =>
      simp only [toTerm, ofTerm?, Nat.add_sub_cancel, ofItems?_itemTerms items h depth, nesting,
        reread?, Nat.add_le_add_iff_right]
      split_ifs <;> simp_all
  | .object fields, h, depth => by
    obtain ⟨hordered, hfields⟩ : Fields.Ordered fields ∧ PlainFields fields := h
    cases depth with
    | zero => simp [toTerm, ofTerm?, nesting]
    | succ depth =>
      simp only [toTerm, ofTerm?, Nat.add_sub_cancel, ofMembers?_memberTerms fields hfields depth,
        nesting, reread?, Nat.add_le_add_iff_right]
      by_cases hdepth : nestingFields fields ≤ depth
      · cases hread : rereadFields? fields with
        | none => simp [hdepth]
        | some fields' =>
          simp [hdepth, Fields.ofList_of_ordered (ordered_rereadFields? hordered hread)]
      · simp [hdepth]

theorem ofItems?_itemTerms : ∀ (items : List Document), PlainItems items → ∀ depth : Nat,
    ofItems? depth (itemTerms items) =
      if nestingItems items ≤ depth then rereadItems? items else none
  | [], _, depth => by simp [itemTerms, ofItems?, nestingItems, rereadItems?]
  | item :: items, h, depth => by
    simp only [itemTerms, ofItems?, nestingItems, rereadItems?, max_le_iff,
      ofTerm?_toTerm item h.1 depth, ofItems?_itemTerms items h.2 depth]
    by_cases hitem : item.nesting ≤ depth <;> by_cases hitems : nestingItems items ≤ depth <;>
      simp [hitem, hitems]

theorem ofMembers?_memberTerms : ∀ (fields : List (String × Document)), PlainFields fields →
    ∀ depth : Nat, ofMembers? depth (memberTerms fields) =
      if nestingFields fields ≤ depth then rereadFields? fields else none
  | [], _, depth => by simp [memberTerms, ofMembers?, nestingFields, rereadFields?]
  | (name, value) :: fields, h, depth => by
    simp only [memberTerms, ofMembers?, nestingFields, rereadFields?, max_le_iff,
      Quoted.read?_write, ofTerm?_toTerm value h.1 depth, ofMembers?_memberTerms fields h.2 depth]
    by_cases hvalue : value.nesting ≤ depth <;> by_cases hfields : nestingFields fields ≤ depth <;>
      simp [hvalue, hfields]

end

theorem parse?_write {d : Document} (h : d.Plain) :
    parse? d.write = if d.nesting ≤ nestingLimit then d.reread? else none := by
  rw [parse?, write, Term.parse?_write (printable_toTerm d), Option.bind_some,
    ofTerm?_toTerm d h]

end Json.Document
end Chronicle
