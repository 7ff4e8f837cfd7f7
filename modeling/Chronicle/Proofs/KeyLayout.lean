import Mathlib
import Chronicle.Key
import Chronicle.Proofs.BigEndian

/-!
# Layout of the key space

A key tells what it names: log keys, index keys and alias pointers differ in the first byte,
and each kind reads back. Only the names of items stand in their keys without a length, so the
index keys of two items can meet; `Key.sub_eq_sub_iff_covers` says which keys do, and
`ItemId.apart_iff` for which pairs of items there are any.
-/
namespace Chronicle

namespace ItemId

theorem eq_of_parts {a b : ItemId} (htag : a.tag = b.tag) (hname : a.name = b.name) : a = b := by
  cases a
  cases b
  cases htag
  cases hname
  rfl

theorem encode_injective {a b : ItemId} (h : a.encode = b.encode) : a = b := by
  obtain ⟨htag, hname⟩ := List.append_inj h (by simp)
  rw [Bytes.bigEndian_inj (Bytes.toNat_lt_capacity_two _) (Bytes.toNat_lt_capacity_two _),
    UInt16.toNat_inj] at htag
  exact eq_of_parts htag hname

theorem decode_encode (item : ItemId) : decode item.encode = .ok item := by
  obtain ⟨a, b, hab⟩ : ∃ a b, Bytes.bigEndian 2 item.tag.toNat = [a, b] :=
    List.length_eq_two.mp (Bytes.length_bigEndian _ _)
  have hvalue := Bytes.bigEndianValue_bigEndian 2 item.tag.toNat
  rw [hab, Nat.mod_eq_of_lt (Bytes.toNat_lt_capacity_two _)] at hvalue
  rw [encode, hab, List.cons_append, List.cons_append, List.nil_append, decode, hvalue,
    UInt16.ofNat_toNat]

/-- Item events go to the partition that the type tag spells. -/
theorem partition_eq_ok {item : ItemId} {p : UInt8} :
    item.partition = .ok p ↔ item.tag.toNat = p.toNat := by
  unfold partition
  split_ifs with h
  · rw [Except.ok.injEq, ← UInt8.toNat_inj, UInt16.toNat_toUInt8]
    constructor <;> intro hp <;> omega
  · have hp := p.toNat_lt
    simp only [false_iff]
    omega

end ItemId

/-! ## Log keys -/

namespace Key

@[simp] theorem length_log (id : EventId) : (log id).length = logLength := by
  simp [log, partition, logLength]

theorem log_ne_nil (id : EventId) : log id ≠ [] := nofun

theorem log_eq_cons (id : EventId) : ∃ rest, log id = logTag :: rest := ⟨_, rfl⟩

theorem log_injective {a b : EventId} (h : log a = log b) : a = b := by
  obtain ⟨hfront, hindex⟩ := List.append_inj h (by simp [partition])
  obtain ⟨hpartition, htime⟩ := List.append_inj hfront (by simp [partition])
  rw [partition, partition, List.cons.injEq, Bytes.bigEndian_inj
    (Bytes.toNat_byte_lt_capacity_two _) (Bytes.toNat_byte_lt_capacity_two _)] at hpartition
  rw [Bytes.bigEndian_inj (Bytes.toNat_lt_capacity_eight _) (Bytes.toNat_lt_capacity_eight _)]
    at htime
  rw [Bytes.bigEndian_inj (Bytes.toNat_lt_capacity_two _) (Bytes.toNat_lt_capacity_two _)]
    at hindex
  cases a
  cases b
  simp_all [UInt8.toNat_inj, UInt64.toNat_inj, UInt16.toNat_inj]

@[simp] theorem log_inj {a b : EventId} : log a = log b ↔ a = b :=
  ⟨log_injective, fun h => h ▸ rfl⟩

end Key

namespace EventId

theorem decode_log (id : EventId) : decode (Key.log id) = .ok id := by
  have hpartition := Bytes.bigEndianValue_bigEndian 2 id.partition.toNat
  have htime := Bytes.bigEndianValue_bigEndian 8 id.timestamp.toNat
  have hindex := Bytes.bigEndianValue_bigEndian 2 id.index.toNat
  rw [Nat.mod_eq_of_lt (Bytes.toNat_byte_lt_capacity_two _)] at hpartition
  rw [Nat.mod_eq_of_lt (Bytes.toNat_lt_capacity_eight _)] at htime
  rw [Nat.mod_eq_of_lt (Bytes.toNat_lt_capacity_two _)] at hindex
  have hlt := id.partition.toNat_lt
  have hnil : (Bytes.bigEndian 2 id.partition.toNat).drop 10 = [] :=
    List.drop_eq_nil_of_le (by simp)
  unfold decode
  simp [Key.log, Key.partition, Key.logLength, List.drop_append, hnil, hpartition, htime, hindex,
    hlt]

theorem decode_eq_ok_iff {key : Bytes} {id : EventId} : decode key = .ok id ↔ key = Key.log id := by
  constructor
  · intro h
    unfold decode at h
    split_ifs at h with hlen hhead
    dsimp only at h
    split_ifs at h with hpartition
    rw [Except.ok.injEq] at h
    subst h
    push Not at hlen hhead
    obtain ⟨rest, rfl⟩ : ∃ rest, key = Key.logTag :: rest := by
      cases key with
      | nil => simp at hhead
      | cons b rest => exact ⟨rest, by simpa using hhead⟩
    have hrest : rest.length = 12 := by simpa [Key.logLength] using hlen
    have hfront : (rest.take 2).length = 2 := by simp [hrest]
    have hmiddle : ((rest.drop 2).take 8).length = 8 := by simp [hrest]
    have hback : (rest.drop 10).length = 2 := by simp [hrest]
    have hindex : Bytes.bigEndianValue (rest.drop 10) < 65536 := by
      simpa [hback, Bytes.capacity] using Bytes.bigEndianValue_lt (rest.drop 10)
    have htime : Bytes.bigEndianValue ((rest.drop 2).take 8) < 18446744073709551616 := by
      simpa only [hmiddle, Bytes.capacity] using Bytes.bigEndianValue_lt ((rest.drop 2).take 8)
    have efront := Bytes.bigEndian_bigEndianValue (rest.take 2)
    have emiddle := Bytes.bigEndian_bigEndianValue ((rest.drop 2).take 8)
    have eback := Bytes.bigEndian_bigEndianValue (rest.drop 10)
    rw [hfront] at efront
    rw [hmiddle] at emiddle
    rw [hback] at eback
    simp only [List.drop_succ_cons, List.drop_zero] at hpartition ⊢
    simp only [Key.log, Key.partition, UInt8.toNat_ofNat_of_lt' hpartition,
      UInt64.toNat_ofNat_of_lt' htime, UInt16.toNat_ofNat_of_lt' hindex, efront, emiddle, eback,
      List.cons_append, List.append_assoc, List.cons.injEq, true_and]
    have htail := List.take_append_drop 8 (rest.drop 2)
    rw [List.drop_drop] at htail
    rw [htail, List.take_append_drop]
  · rintro rfl
    exact decode_log id

end EventId

/-! ## Index keys -/

/-- What an index key says about its item. The list of view names stands where a view with an
empty name would. -/
inductive SubKey
  | version
  | aliases
  | slot (n : UInt64)
  | view (name : Bytes)
  deriving DecidableEq, Repr

namespace SubKey

def mark : SubKey → UInt8
  | version => Key.versionMark
  | aliases => Key.aliasesMark
  | slot _ => Key.slotMark
  | view _ => Key.viewMark

def suffix : SubKey → Bytes
  | version => []
  | aliases => []
  | slot n => Bytes.bigEndian 8 n.toNat
  | view name => name

theorem eq_of_parts {x y : SubKey} (hmark : x.mark = y.mark) (hsuffix : x.suffix = y.suffix) :
    x = y := by
  cases x <;> cases y <;> simp only [mark] at hmark <;> try exact absurd hmark (by decide)
  case version.version => rfl
  case aliases.aliases => rfl
  case slot.slot m n =>
    simp only [suffix] at hsuffix
    rw [Bytes.bigEndian_inj (Bytes.toNat_lt_capacity_eight _) (Bytes.toNat_lt_capacity_eight _),
      UInt64.toNat_inj] at hsuffix
    rw [hsuffix]
  case view.view m n => exact congrArg view hsuffix

end SubKey

namespace Key

theorem index_ne_nil (item : ItemId) (mark : UInt8) (suffix : Bytes) : index item mark suffix ≠ [] :=
  nofun

def sub (item : ItemId) (k : SubKey) : Bytes := index item k.mark k.suffix

/-- What the index keys of all items of a type tag begin with. -/
def family (tag : UInt16) : Bytes := itemTag :: Bytes.bigEndian 2 tag.toNat

/-- The index of an item has keys of five kinds. -/
theorem exists_sub_eq_iff {item : ItemId} {key : Bytes} : (∃ k, sub item k = key) ↔
    key = version item ∨ key = aliases item ∨ key = views item ∨
      (∃ name, name ≠ [] ∧ key = view item name) ∨ ∃ n, key = slot item n := by
  constructor
  · rintro ⟨k, rfl⟩
    cases k with
    | version => exact .inl rfl
    | aliases => exact .inr (.inl rfl)
    | slot n => exact .inr (.inr (.inr (.inr ⟨n, rfl⟩)))
    | view name =>
      by_cases hname : name = []
      · cases hname
        exact .inr (.inr (.inl rfl))
      · exact .inr (.inr (.inr (.inl ⟨name, hname, rfl⟩)))
  · rintro (rfl | rfl | rfl | ⟨name, -, rfl⟩ | ⟨n, rfl⟩)
    · exact ⟨.version, rfl⟩
    · exact ⟨.aliases, rfl⟩
    · exact ⟨.view [], rfl⟩
    · exact ⟨.view name, rfl⟩
    · exact ⟨.slot n, rfl⟩

theorem sub_eq (item : ItemId) (k : SubKey) :
    sub item k = family item.tag ++ (item.name ++ k.mark :: k.suffix) := by
  simp [sub, index, family, ItemId.encode]

theorem family_inj {s t : UInt16} : family s = family t ↔ s = t := by
  rw [family, family, List.cons.injEq, Bytes.bigEndian_inj (Bytes.toNat_lt_capacity_two _)
    (Bytes.toNat_lt_capacity_two _), UInt16.toNat_inj]
  exact and_iff_right rfl

theorem sub_eq_sub_iff {a b : ItemId} {x y : SubKey} :
    sub a x = sub b y ↔
      a.tag = b.tag ∧ a.name ++ x.mark :: x.suffix = b.name ++ y.mark :: y.suffix := by
  rw [sub_eq, sub_eq]
  constructor
  · intro h
    obtain ⟨hfamily, hrest⟩ := List.append_inj h (by simp [family])
    exact ⟨family_inj.mp hfamily, hrest⟩
  · rintro ⟨htag, hrest⟩
    rw [htag, hrest]

/-- The last byte of a key without a suffix is its mark. -/
theorem getLast?_index (item : ItemId) (mark : UInt8) : (index item mark []).getLast? = some mark :=
  List.getLast?_concat

theorem sub_injective {item : ItemId} {x y : SubKey} (h : sub item x = sub item y) : x = y := by
  have hrest := List.append_cancel_left (sub_eq_sub_iff.mp h).2
  rw [List.cons.injEq] at hrest
  exact SubKey.eq_of_parts hrest.1 hrest.2

theorem sub_left_injective {a b : ItemId} {k : SubKey} (h : sub a k = sub b k) : a = b := by
  obtain ⟨htag, hname⟩ := sub_eq_sub_iff.mp h
  exact ItemId.eq_of_parts htag (List.append_cancel_right hname)

@[simp] theorem sub_inj {item : ItemId} {x y : SubKey} : sub item x = sub item y ↔ x = y :=
  ⟨sub_injective, fun h => h ▸ rfl⟩

theorem sub_ne {item : ItemId} {x y : SubKey} (h : x ≠ y) : sub item x ≠ sub item y :=
  fun heq => h (sub_injective heq)

/-! ## The three kinds -/

theorem pointer_injective {a b : ItemId} (h : pointer a = pointer b) : a = b :=
  ItemId.encode_injective (List.cons.inj h).2

@[simp] theorem pointer_inj {a b : ItemId} : pointer a = pointer b ↔ a = b :=
  ⟨pointer_injective, fun h => h ▸ rfl⟩

@[simp] theorem head?_log (id : EventId) : (log id).head? = some logTag := rfl
@[simp] theorem head?_sub (item : ItemId) (k : SubKey) : (sub item k).head? = some itemTag := rfl
@[simp] theorem head?_pointer (aliasId : ItemId) : (pointer aliasId).head? = some aliasTag := rfl

theorem head?_index_ne (item : ItemId) (mark : UInt8) (suffix : Bytes) :
    (index item mark suffix).head? ≠ some logTag := by
  show some itemTag ≠ some logTag
  decide

theorem head?_pointer_ne (aliasId : ItemId) : (pointer aliasId).head? ≠ some logTag := by
  show some aliasTag ≠ some logTag
  decide

@[simp] theorem log_ne_sub (id : EventId) (item : ItemId) (k : SubKey) : log id ≠ sub item k :=
  fun h => absurd (congrArg List.head? h) (by simp; decide)

@[simp] theorem sub_ne_log (id : EventId) (item : ItemId) (k : SubKey) : sub item k ≠ log id :=
  (log_ne_sub id item k).symm

@[simp] theorem log_ne_pointer (id : EventId) (aliasId : ItemId) : log id ≠ pointer aliasId :=
  fun h => absurd (congrArg List.head? h) (by simp; decide)

@[simp] theorem pointer_ne_log (id : EventId) (aliasId : ItemId) : pointer aliasId ≠ log id :=
  (log_ne_pointer id aliasId).symm

@[simp] theorem sub_ne_pointer (item aliasId : ItemId) (k : SubKey) : sub item k ≠ pointer aliasId :=
  fun h => absurd (congrArg List.head? h) (by simp; decide)

@[simp] theorem pointer_ne_sub (item aliasId : ItemId) (k : SubKey) : pointer aliasId ≠ sub item k :=
  (sub_ne_pointer item aliasId k).symm

end Key

namespace ItemId

/-- The name of one item goes on where the name of the other ends, with the mark of a slot or
of a view. -/
def Continues (long short : ItemId) : Prop :=
  long.tag = short.tag ∧ ∃ rest, long.name = short.name ++ Key.slotMark :: rest ∨
    long.name = short.name ++ Key.viewMark :: rest

/-- Like `Continues`, with no more bytes after the mark of a slot than leave room for a mark
within the eight bytes of a slot number. -/
def Shadows (long short : ItemId) : Prop :=
  long.tag = short.tag ∧ ∃ rest, (long.name = short.name ++ Key.slotMark :: rest ∧
    rest.length < 8) ∨ long.name = short.name ++ Key.viewMark :: rest

/-- No index key of one item is an index key of the other. -/
def Apart (a b : ItemId) : Prop := ∀ x y, Key.sub a x ≠ Key.sub b y

theorem extends?_iff {item stem : ItemId} :
    item.extends? stem = true ↔ item.tag = stem.tag ∧ stem.name <+: item.name := by
  rw [extends?, decide_eq_true_iff, List.isPrefixOf_iff_prefix]

theorem not_continues_of_length {long short : ItemId} (h : long.name.length ≤ short.name.length) :
    ¬ long.Continues short := by
  rintro ⟨-, rest, hname | hname⟩
  · rw [hname] at h
    simp at h
  · rw [hname] at h
    simp at h

theorem not_continues_self (item : ItemId) : ¬ item.Continues item :=
  not_continues_of_length le_rfl

theorem Shadows.continues {long short : ItemId} (h : long.Shadows short) :
    long.Continues short := by
  obtain ⟨htag, rest, ⟨hname, -⟩ | hname⟩ := h
  · exact ⟨htag, rest, .inl hname⟩
  · exact ⟨htag, rest, .inr hname⟩

theorem Apart.symm {a b : ItemId} (h : a.Apart b) : b.Apart a := fun x y hxy => h y x hxy.symm

end ItemId

/-! ## Keys of two items -/

namespace Key

variable {a b : ItemId} {x y : SubKey} {rest : Bytes}

/-- The key of the item `short` that is spelled like the key `y` of the item `long`. Where the name
of `long` goes on with the mark of a slot or of a view, what follows that mark is, for `short`, the
number of the slot or the name of the view. -/
inductive Covers (short long : ItemId) (y : SubKey) : SubKey → Prop
  | slot {rest : Bytes} {n : UInt64} (tag : long.tag = short.tag)
      (name : long.name = short.name ++ slotMark :: rest)
      (number : Bytes.bigEndian 8 n.toNat = rest ++ y.mark :: y.suffix) :
      Covers short long y (.slot n)
  | view {rest : Bytes} (tag : long.tag = short.tag)
      (name : long.name = short.name ++ viewMark :: rest) :
      Covers short long y (.view (rest ++ y.mark :: y.suffix))

theorem Covers.shadows (h : Covers a b y x) : b.Shadows a := by
  cases h with
  | @slot rest n htag hname hnumber =>
    have hlen := congrArg List.length hnumber
    simp only [Bytes.length_bigEndian, List.length_append, List.length_cons] at hlen
    exact ⟨htag, rest, .inl ⟨hname, by omega⟩⟩
  | @view rest htag hname => exact ⟨htag, rest, .inr hname⟩

theorem Covers.sub_eq_sub (h : Covers a b y x) : sub a x = sub b y := by
  rw [sub_eq_sub_iff]
  cases h with
  | slot htag hname hnumber =>
    refine ⟨htag.symm, ?_⟩
    simp only [SubKey.mark, SubKey.suffix, hname, hnumber, List.append_assoc, List.cons_append]
  | view htag hname =>
    refine ⟨htag.symm, ?_⟩
    simp only [SubKey.mark, SubKey.suffix, hname, List.append_assoc, List.cons_append]

/-- The list of views is not a view under a name, and covers nothing. -/
theorem Covers.ne_views (h : Covers a b y x) : x ≠ .view [] := by
  cases h with
  | slot => nofun
  | view => simp

/-- Two equal keys, seen from the item with the shorter name: what the longer name has more must
begin with the mark of the shorter one's key, which then needs room for the mark of the other. -/
theorem eq_or_covers_of_append (htag : b.tag = a.tag) (hname : b.name = a.name ++ rest)
    (hrest : x.mark :: x.suffix = rest ++ y.mark :: y.suffix) :
    a = b ∧ x = y ∨ Covers a b y x := by
  cases rest with
  | nil =>
    rw [List.nil_append, List.cons.injEq] at hrest
    rw [List.append_nil] at hname
    exact .inl ⟨ItemId.eq_of_parts htag.symm hname.symm, SubKey.eq_of_parts hrest.1 hrest.2⟩
  | cons mark rest =>
    rw [List.cons_append, List.cons.injEq] at hrest
    obtain ⟨rfl, hsuffix⟩ := hrest
    cases x with
    | version => simp [SubKey.suffix] at hsuffix
    | aliases => simp [SubKey.suffix] at hsuffix
    | slot n => exact .inr (.slot htag hname hsuffix)
    | view name =>
      cases hsuffix
      exact .inr (.view htag hname)

/-- All ways in which two index keys can be equal. -/
theorem sub_eq_sub_iff_covers : sub a x = sub b y ↔
    a = b ∧ x = y ∨ Covers a b y x ∨ Covers b a x y := by
  constructor
  · intro h
    obtain ⟨htag, hrest⟩ := sub_eq_sub_iff.mp h
    rcases List.append_eq_append_iff.mp hrest with ⟨rest, hname, htail⟩ | ⟨rest, hname, htail⟩
    · exact (eq_or_covers_of_append htag.symm hname htail).imp_right .inl
    · rcases eq_or_covers_of_append htag hname htail with ⟨hitem, hkey⟩ | hcovers
      · exact .inl ⟨hitem.symm, hkey.symm⟩
      · exact .inr (.inr hcovers)
  · rintro (⟨rfl, rfl⟩ | h | h)
    · rfl
    · exact h.sub_eq_sub
    · exact h.sub_eq_sub.symm

/-- A small number is enough: 118 ends in the byte `v`, the mark of a version. -/
example : slot ⟨1, [120]⟩ 118 = version ⟨1, [120, 101, 0, 0, 0, 0, 0, 0, 0]⟩ := by decide

theorem length_sub (item : ItemId) (k : SubKey) :
    (sub item k).length = item.name.length + 4 + k.suffix.length := by
  rw [sub_eq]
  simp [family]
  omega

/-- Where a name goes on with the mark of a view, the version stands in a view of the other item. -/
theorem view_eq_version (htag : b.tag = a.tag) (hname : b.name = a.name ++ viewMark :: rest) :
    view a (rest ++ [versionMark]) = version b := by
  have hcovers : Covers a b .version (.view (rest ++ [versionMark])) := .view htag hname
  exact hcovers.sub_eq_sub

/-- Where a name goes on with the mark of a slot, the number of a slot can spell the rest of it and
a view. The version of that item, if it stands in a slot at all, stands in a later one. -/
theorem exists_slot_eq_view (htag : b.tag = a.tag) (hname : b.name = a.name ++ slotMark :: rest)
    (hshort : rest.length < 8) :
    ∃ n name, 0 < n ∧ n + 1 < Bytes.capacity 8 ∧ slot a (UInt64.ofNat n) = view b name ∧
      ∀ j ≤ n, slot a (UInt64.ofNat j) ≠ version b := by
  obtain ⟨zeros, hzeros⟩ : ∃ zeros, zeros = List.replicate (7 - rest.length) (0 : UInt8) := ⟨_, rfl⟩
  have hlen : (rest ++ viewMark :: zeros).length = 8 := by
    rw [hzeros]
    simp only [List.length_append, List.length_cons, List.length_replicate]
    omega
  have hlt := Bytes.bigEndianValue_lt (rest ++ viewMark :: zeros)
  have hspell := Bytes.bigEndian_bigEndianValue (rest ++ viewMark :: zeros)
  have hmark : viewMark ∈ rest ++ viewMark :: zeros := by simp
  rw [hlen] at hlt hspell
  rw [← hspell] at hmark
  refine ⟨Bytes.bigEndianValue (rest ++ viewMark :: zeros), zeros, ?_, ?_, ?_, fun j hj heq => ?_⟩
  · refine Nat.pos_of_ne_zero fun hzero => ?_
    rw [hzero] at hmark
    exact absurd hmark (by decide)
  · refine lt_of_le_of_ne hlt fun hlast => ?_
    rw [Nat.eq_sub_of_add_eq hlast] at hmark
    exact absurd hmark (by decide)
  · have hcovers : Covers a b (.view zeros)
        (.slot (UInt64.ofNat (Bytes.bigEndianValue (rest ++ viewMark :: zeros)))) :=
      .slot htag hname (by rw [UInt64.toNat_ofNat_of_lt' hlt, hspell]; rfl)
    exact hcovers.sub_eq_sub
  · change sub a (.slot (UInt64.ofNat j)) = sub b .version at heq
    have hnumber := (sub_eq_sub_iff.mp heq).2
    simp only [SubKey.mark, SubKey.suffix, hname, List.append_assoc, List.cons_append,
      UInt64.toNat_ofNat_of_lt' (hj.trans_lt hlt), List.append_cancel_left_eq, List.cons.injEq,
      true_and] at hnumber
    have hlength := congrArg List.length hnumber
    have hvalue := congrArg Bytes.bigEndianValue hnumber
    simp only [Bytes.length_bigEndian, List.length_append, List.length_singleton] at hlength
    -- no zeros then, and the mark of a version is greater than that of a view
    have hnone : 7 - rest.length = 0 := by omega
    have hnil : zeros = [] := by rw [hzeros, hnone, List.replicate_zero]
    rw [hnil, Bytes.bigEndianValue_concat] at hj hlt
    rw [Bytes.bigEndianValue_bigEndian, Nat.mod_eq_of_lt (hj.trans_lt hlt),
      Bytes.bigEndianValue_concat] at hvalue
    have hmarks : viewMark.toNat < versionMark.toNat := by decide
    omega

end Key

namespace ItemId

/-- A name that continues another one this way takes over some of its keys. -/
theorem Shadows.not_apart {a b : ItemId} (h : b.Shadows a) : ¬ a.Apart b := by
  intro hapart
  obtain ⟨htag, rest, ⟨hname, hshort⟩ | hname⟩ := h
  · obtain ⟨n, name, -, -, heq, -⟩ := Key.exists_slot_eq_view htag hname hshort
    exact hapart (.slot _) (.view name) heq
  · exact hapart (.view _) .version (Key.view_eq_version htag hname)

theorem apart_iff {a b : ItemId} (hne : a ≠ b) : a.Apart b ↔ ¬ b.Shadows a ∧ ¬ a.Shadows b := by
  constructor
  · intro h
    exact ⟨fun hs => hs.not_apart h, fun hs => hs.not_apart h.symm⟩
  · rintro ⟨hba, hab⟩ x y hxy
    rcases Key.sub_eq_sub_iff_covers.mp hxy with ⟨heq, -⟩ | hcovers | hcovers
    · exact hne heq
    · exact hba hcovers.shadows
    · exact hab hcovers.shadows

theorem apart_of_not_continues {a b : ItemId} (hne : a ≠ b) (hba : ¬ b.Continues a)
    (hab : ¬ a.Continues b) : a.Apart b :=
  (apart_iff hne).mpr ⟨fun h => hba h.continues, fun h => hab h.continues⟩

end ItemId

/-! ## The result -/

/-- The index keys of an item are its version, its alias list, its list of views, its views, each
under a name, and its slots. Two index keys are equal exactly if they are the same key of the same
item or one covers the other; then both items have one type tag, the name of one is that of the
other, the mark of a slot or of a view and perhaps more, and for the item with the shorter name the
key is such a slot or such a view, never its list of views. No key of one kind is a key of another
kind, and the pointers of different aliases stand under different keys. -/
theorem keys_clash_by_covering :
    (∀ (item : ItemId) (key : Bytes), (∃ k, Key.sub item k = key) ↔
      key = Key.version item ∨ key = Key.aliases item ∨ key = Key.views item ∨
        (∃ name, name ≠ [] ∧ key = Key.view item name) ∨ ∃ n, key = Key.slot item n) ∧
    (∀ (a b : ItemId) (x y : SubKey), Key.sub a x = Key.sub b y ↔
      a = b ∧ x = y ∨ Key.Covers a b y x ∨ Key.Covers b a x y) ∧
    (∀ (short long : ItemId) (y : SubKey), ¬ Key.Covers short long y (.view [])) ∧
    (∀ (item : ItemId) (k : SubKey) (id : EventId), Key.sub item k ≠ Key.log id) ∧
    (∀ (item aliasId : ItemId) (k : SubKey), Key.sub item k ≠ Key.pointer aliasId) ∧
    (∀ (id : EventId) (aliasId : ItemId), Key.log id ≠ Key.pointer aliasId) ∧
    ∀ a b : ItemId, Key.pointer a = Key.pointer b ↔ a = b := by
  refine ⟨fun item key => ?_, fun a b x y => ?_, fun short long y => ?_, fun item k id => ?_,
    fun item aliasId k => ?_, fun id aliasId => ?_, fun a b => ?_⟩
  · exact Key.exists_sub_eq_iff
  · exact Key.sub_eq_sub_iff_covers
  · exact fun hcovers => hcovers.ne_views rfl
  · exact Key.sub_ne_log id item k
  · exact Key.sub_ne_pointer item aliasId k
  · exact Key.log_ne_pointer id aliasId
  · exact Key.pointer_inj

end Chronicle
