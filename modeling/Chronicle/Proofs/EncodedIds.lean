import Mathlib
import Chronicle.Proofs.LogPages

/-!
# Order and shape of encoded identities

The bytes of an identity stand in the order of the identity, and no other bytes are read as one. Both
rest on numbers of fixed width, most significant byte first: where two of them differ, their bytes
differ in the same direction, and what comes behind them is compared only if they are equal.
-/
namespace Chronicle

/-- The byte order: where two strings first differ, or a string before those that go on behind it. -/
theorem Bytes.compare_eq_lt {xs ys : Bytes} : compare xs ys = .lt ↔ xs < ys := by
  induction xs generalizing ys with
  | nil =>
    cases ys with
    | nil => simp
    | cons b ys => simp
  | cons a xs ih =>
    cases ys with
    | nil => simp
    | cons b ys =>
      rw [compare_cons, Ordering.then_eq_lt, Std.compare_eq_lt, Std.LawfulEqOrd.compare_eq_iff_eq,
        ih, List.cons_lt_cons_iff]

/-! ## Events -/

namespace EventId

theorem compare_eq_lt {a b : EventId} : compare a b = .lt ↔
    a.partition < b.partition ∨ a.partition = b.partition ∧
      (a.timestamp < b.timestamp ∨ a.timestamp = b.timestamp ∧ a.index < b.index) := by
  show ((compare a.partition b.partition).then (compare a.timestamp b.timestamp)).then
    (compare a.index b.index) = .lt ↔ _
  rw [Ordering.then_assoc, Ordering.then_eq_lt, Ordering.then_eq_lt]
  simp only [Std.compare_eq_lt, Std.LawfulEqOrd.compare_eq_iff_eq]

theorem log_lt_log_iff {a b : EventId} : Key.log a < Key.log b ↔
    a.partition < b.partition ∨ a.partition = b.partition ∧
      (a.timestamp < b.timestamp ∨ a.timestamp = b.timestamp ∧ a.index < b.index) := by
  rw [← Bytes.compare_eq_lt, compare_log, compare_eq_lt]

end EventId

/-! ## Items -/

namespace ItemId

variable {a b x stem : ItemId} {key : Bytes}

theorem compare_encode (a b : ItemId) : compare a.encode b.encode = compare a b := by
  have htag : compare (Bytes.bigEndian 2 a.tag.toNat) (Bytes.bigEndian 2 b.tag.toNat) =
      compare a.tag.toNat b.tag.toNat :=
    Bytes.compare_bigEndian (Bytes.toNat_lt_capacity_two _) (Bytes.toNat_lt_capacity_two _)
  have hnumber : compare a.tag.toNat b.tag.toNat = compare a.tag b.tag := by
    show compareOfLessAndEq _ _ = compareOfLessAndEq _ _
    simp only [compareOfLessAndEq, UInt16.lt_iff_toNat_lt, ← UInt16.toNat_inj]
  rw [encode, encode, Bytes.compare_append _ _ (by simp), htag, hnumber]
  rfl

theorem compare_eq_lt : compare a b = .lt ↔ a.tag < b.tag ∨ a.tag = b.tag ∧ a.name < b.name := by
  show (compare a.tag b.tag).then (compare a.name b.name) = .lt ↔ _
  rw [Ordering.then_eq_lt, Std.compare_eq_lt, Std.LawfulEqOrd.compare_eq_iff_eq,
    Bytes.compare_eq_lt]

theorem encode_lt_encode_iff :
    a.encode < b.encode ↔ a.tag < b.tag ∨ a.tag = b.tag ∧ a.name < b.name := by
  rw [← Bytes.compare_eq_lt, compare_encode, compare_eq_lt]

/-- A name stem together with its tag is a stem of the bytes. -/
theorem extends?_iff_prefix : x.extends? stem = true ↔ stem.encode <+: x.encode := by
  rw [extends?_iff, encode, encode]
  constructor
  · rintro ⟨htag, rest, hname⟩
    refine ⟨rest, ?_⟩
    rw [htag, List.append_assoc, hname]
  · rintro ⟨rest, h⟩
    rw [List.append_assoc] at h
    obtain ⟨htag, hname⟩ := List.append_inj h (by simp)
    rw [Bytes.bigEndian_inj (Bytes.toNat_lt_capacity_two _) (Bytes.toNat_lt_capacity_two _),
      UInt16.toNat_inj] at htag
    exact ⟨htag.symm, rest, hname⟩

/-- Two bytes or more are the bytes of an item. -/
theorem exists_encode_eq (first second : UInt8) (name : Bytes) :
    ∃ x : ItemId, x.encode = first :: second :: name := by
  have hvalue : Bytes.bigEndianValue [first, second] < 65536 := by
    simpa [Bytes.capacity] using Bytes.bigEndianValue_lt [first, second]
  have hbytes : Bytes.bigEndian 2 (Bytes.bigEndianValue [first, second]) = [first, second] :=
    Bytes.bigEndian_bigEndianValue [first, second]
  refine ⟨⟨UInt16.ofNat (Bytes.bigEndianValue [first, second]), name⟩, ?_⟩
  rw [encode, UInt16.toNat_ofNat_of_lt' hvalue, hbytes]
  rfl

theorem decode_eq_error_iff : (∃ fault, decode key = .error fault) ↔ key.length < 2 := by
  match key with
  | [] => simp [decode]
  | [first] => simp [decode]
  | first :: second :: name => simp [decode]

theorem decode_eq_ok_iff : decode key = .ok x ↔ key = x.encode := by
  constructor
  · intro h
    match key with
    | [] => cases h
    | [first] => cases h
    | first :: second :: name =>
      obtain ⟨y, hy⟩ := exists_encode_eq first second name
      rw [← hy, decode_encode, Except.ok.injEq] at h
      rw [← hy, h]
  · intro h
    rw [h]
    exact decode_encode x

end ItemId

/-! ## The result -/

/-- Log keys stand in byte order as their events do by partition, timestamp and index; those of a
partition are the ones that begin with its stem; and a log key is all that is read as one. Encoded
items stand in byte order as the items do by tag and name; an item extends a stem exactly if its bytes
extend those of the stem; and everything from two bytes on is read as an item, namely the one with
these bytes. -/
theorem ids_encoded_in_order :
    (∀ a b : EventId, compare (Key.log a) (Key.log b) = compare a b ∧
      (Key.log a < Key.log b ↔ a.partition < b.partition ∨ a.partition = b.partition ∧
        (a.timestamp < b.timestamp ∨ a.timestamp = b.timestamp ∧ a.index < b.index))) ∧
    (∀ (id : EventId) (p : UInt8), Key.partition p <+: Key.log id ↔ id.partition = p) ∧
    (∀ (key : Bytes) (id : EventId), EventId.decode key = .ok id ↔ key = Key.log id) ∧
    (∀ a b : ItemId, compare a.encode b.encode = compare a b ∧
      (a.encode < b.encode ↔ a.tag < b.tag ∨ a.tag = b.tag ∧ a.name < b.name)) ∧
    (∀ x stem : ItemId, x.extends? stem = true ↔ stem.encode <+: x.encode) ∧
    (∀ (key : Bytes) (x : ItemId), ItemId.decode key = .ok x ↔ key = x.encode) ∧
    ∀ key : Bytes, (∃ fault, ItemId.decode key = .error fault) ↔ key.length < 2 := by
  refine ⟨fun a b => ⟨EventId.compare_log a b, EventId.log_lt_log_iff⟩, fun id p => ?_,
    fun key id => ?_, fun a b => ⟨ItemId.compare_encode a b, ItemId.encode_lt_encode_iff⟩,
    fun x stem => ?_, fun key x => ?_, fun key => ?_⟩
  · exact Key.partition_prefix_log
  · exact EventId.decode_eq_ok_iff
  · exact ItemId.extends?_iff_prefix
  · exact ItemId.decode_eq_ok_iff
  · exact ItemId.decode_eq_error_iff

end Chronicle
