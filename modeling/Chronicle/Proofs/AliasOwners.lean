import Mathlib
import Chronicle.Proofs.Locality

/-!
# Aliases by partition

Where no alias is used in two partitions, each alias has an owner, and the lists and pointers of
aliases that a store keeps stay within the partitions that own them. What a takeover reads and
writes then belongs to the partition of its event.
-/
namespace Chronicle

variable {owner : ItemId → UInt8} {p q : UInt8} {item : ItemId} {keys : KeySpace} {s : Session}

/-- What a partition has beside its log: the index keys of its items, and the pointers of the
aliases that it owns. -/
def Key.Part (owner : ItemId → UInt8) (p : UInt8) (key : Bytes) : Prop :=
  family p.toUInt16 <+: key ∨ ∃ x, owner x = p ∧ key = pointer x

namespace Key

theorem part_sub (h : item.tag = p.toUInt16) (k : SubKey) : Part owner p (sub item k) := by
  rw [sub_eq, h]
  exact .inl (List.prefix_append _ _)

theorem part_pointer {x : ItemId} (h : owner x = p) : Part owner p (pointer x) := .inr ⟨x, h, rfl⟩

theorem not_family_of_ne {tag : UInt16} {b : UInt8} {rest : Bytes} (hb : b ≠ itemTag) :
    ¬ family tag <+: b :: rest := by
  rintro ⟨tail, h⟩
  exact hb (List.cons.inj h).1.symm

theorem not_part_log (id : EventId) : ¬ Part owner p (log id) := by
  rintro (h | ⟨x, -, h⟩)
  · exact not_family_of_ne (by decide) h
  · exact log_ne_pointer id x h

theorem not_part_of_partition {key : Bytes} (h : partition q <+: key) : ¬ Part owner p key := by
  obtain ⟨rest, rfl⟩ := h
  rintro (h | ⟨x, -, h⟩)
  · exact not_family_of_ne (by decide) h
  · exact absurd (List.cons.inj h).1 (by decide)

/-- The parts of two partitions have no key in common. -/
theorem Part.unique {key : Bytes} (hp : Part owner p key) (hq : Part owner q key) : p = q := by
  rcases hp with hp | ⟨x, hx, rfl⟩
  · rcases hq with hq | ⟨x, -, rfl⟩
    · have hfamily := (List.prefix_of_prefix_length_le hp hq (by simp [family])).eq_of_length
        (by simp [family])
      exact UInt8.toUInt16_inj.mp (family_inj.mp hfamily)
    · exact absurd hp (not_family_of_ne (by decide))
  · rcases hq with hq | ⟨y, hy, h⟩
    · exact absurd hq (not_family_of_ne (by decide))
    · rw [← hx, ← hy, pointer_injective h]

end Key

/-- Lists and pointers of aliases stay within the partition of their items. -/
structure Owned (owner : ItemId → UInt8) (keys : KeySpace) : Prop where
  list : ∀ {item : ItemId} {xs}, Item.aliasList keys item = .ok xs →
    ∀ x ∈ xs, item.tag = (owner x).toUInt16
  pointer : ∀ {x stored}, keys.stored? (Key.pointer x) = some stored →
    ∃ item : ItemId, stored = 0 :: item.encode ∧ item.tag = (owner x).toUInt16

namespace Item

theorem aliasList_of_none (h : keys.stored? (Key.aliases item) = none) :
    aliasList keys item = .ok [] := by
  have hentry : keys.get (Key.aliases item) = .ok none :=
    KeySpace.get_eq_none (Key.index_ne_nil _ _ _) h
  unfold aliasList listAt
  rw [hentry]
  rfl

theorem aliasList_of_some {mark : UInt8} {value : Bytes}
    (h : keys.stored? (Key.aliases item) = some (mark :: value)) :
    aliasList keys item = recorded value := by
  have hentry : keys.get (Key.aliases item) = .ok (some ⟨mark, value⟩) :=
    KeySpace.get_eq_some (Key.index_ne_nil _ _ _) h
  unfold aliasList listAt
  rw [hentry]
  rfl

theorem aliasList_congr {other : KeySpace}
    (h : keys.stored? (Key.aliases item) = other.stored? (Key.aliases item)) :
    aliasList keys item = aliasList other item := listAt_congr h

end Item

namespace Owned

theorem empty : Owned owner KeySpace.empty := by
  refine ⟨fun h => ?_, fun h => absurd h (by simp)⟩
  rw [Item.aliasList_of_none (KeySpace.stored?_empty _)] at h
  cases h
  exact nofun

theorem erase (h : Owned owner keys) (key : Bytes) : Owned owner (keys.erase key) := by
  constructor
  · intro item xs hlist
    by_cases heq : key = Key.aliases item
    · rw [heq, Item.aliasList_of_none (KeySpace.stored?_erase_self _ _)] at hlist
      cases hlist
      exact nofun
    · rw [Item.aliasList_congr (KeySpace.stored?_erase_of_ne keys heq)] at hlist
      exact h.list hlist
  · intro x stored hstored
    rw [KeySpace.stored?_erase] at hstored
    split_ifs at hstored
    exact h.pointer hstored

/-- A new value, with a condition where it stands for a list or for a pointer. -/
theorem insert {key value : Bytes} (h : Owned owner keys) (mark : UInt8)
    (hlist : ∀ item (xs : List ItemId), key = Key.aliases item → recorded value = .ok xs →
      ∀ x ∈ xs, item.tag = (owner x).toUInt16)
    (hpointer : ∀ x, key = Key.pointer x →
      ∃ item : ItemId, mark :: value = 0 :: item.encode ∧ item.tag = (owner x).toUInt16) :
    Owned owner (keys.insert key (mark :: value)) := by
  constructor
  · intro item xs hread
    by_cases heq : key = Key.aliases item
    · rw [heq, Item.aliasList_of_some (KeySpace.stored?_insert_self _ _ _)] at hread
      exact hlist item xs heq hread
    · rw [Item.aliasList_congr (KeySpace.stored?_insert_of_ne keys _ heq)] at hread
      exact h.list hread
  · intro x stored hstored
    rw [KeySpace.stored?_insert] at hstored
    split_ifs at hstored with heq
    · cases hstored
      exact hpointer x heq
    · exact h.pointer hstored

theorem insert_log (h : Owned owner keys) (id : EventId) (mark : UInt8) (payload : Bytes) :
    Owned owner (keys.insert (Key.log id) (mark :: payload)) :=
  h.insert mark (fun item _ heq => absurd heq (Key.log_ne_sub id item .aliases))
    fun x heq => absurd heq (Key.log_ne_pointer id x)

/-- A key of an index whose mark is not that of an alias list. -/
theorem insert_plain {m mark : UInt8} {value : Bytes} (h : Owned owner keys)
    (hm : m ≠ Key.aliasesMark) :
    Owned owner (keys.insert (Key.index item m []) (mark :: value)) := by
  refine h.insert mark (fun other xs heq => ?_) fun x heq => ?_
  · have hlast := Key.getLast?_index item m
    rw [heq, Key.aliases, Key.getLast?_index] at hlast
    exact absurd (Option.some.inj hlast).symm hm
  · exact absurd (List.cons.inj heq).1 (by decide)

theorem insert_slot (h : Owned owner keys) (n : UInt64) (mark : UInt8) (id : EventId) :
    Owned owner (keys.insert (Key.slot item n) (mark :: Key.log id)) :=
  h.insert mark (fun _ xs _ hread => absurd hread (recorded_log_ne (Packed.takes_item.mono (by decide)) id xs))
    fun x heq => absurd heq (Key.sub_ne_pointer item x (.slot n))

theorem insert_aliases {bytes : Bytes} {xs : List ItemId} (h : Owned owner keys) (mark : UInt8)
    (hbytes : record xs = .ok bytes) (hxs : ∀ x ∈ xs, item.tag = (owner x).toUInt16) :
    Owned owner (keys.insert (Key.aliases item) (mark :: bytes)) := by
  refine h.insert mark (fun other ys heq hread => ?_)
    fun x heq => absurd heq (Key.sub_ne_pointer item x .aliases)
  rw [recorded_record hbytes, Except.ok.injEq] at hread
  rw [← hread, ← Key.sub_left_injective (k := .aliases) heq]
  exact hxs

theorem insert_pointer {x : ItemId} (h : Owned owner keys) (hx : item.tag = (owner x).toUInt16) :
    Owned owner (keys.insert (Key.pointer x) (0 :: item.encode)) := by
  refine h.insert 0 (fun other _ heq => absurd heq (Key.pointer_ne_sub other x .aliases))
    fun y heq => ⟨item, rfl, ?_⟩
  rw [← Key.pointer_injective heq]
  exact hx

end Owned

/-! ## What a takeover preserves -/

namespace Item

/-- The invariant, of a session. -/
abbrev KeepsOwned (owner : ItemId → UInt8) (m : Txn Unit) : Prop :=
  m.Keeps fun s => Owned owner s.keys

theorem keepsOwned_delete (key : Bytes) : KeepsOwned owner (Txn.delete key) :=
  Txn.keeps_delete fun _ h => h.erase key

theorem keepsOwned_setVersion (n : Nat) : KeepsOwned owner (setVersion item n) :=
  Txn.keeps_ite (Txn.keeps_set fun _ h => h.insert_plain (by decide)) (Txn.keeps_refuse _)

theorem keepsOwned_setAliases {xs : List ItemId} (hxs : ∀ x ∈ xs, item.tag = (owner x).toUInt16) :
    KeepsOwned owner (setList (Key.aliases item) xs) := by
  refine (Txn.keeps_lift _).bind_of_ok fun _ hlift ht => ?_
  have hset := Txn.keeps_set (I := fun s => Owned owner s.keys) fun _ (h : Owned owner _) =>
    h.insert_aliases 0 (Txn.lift_eq_ok.mp hlift).1 hxs
  exact hset _ ht

theorem keepsOwned_initIndex : KeepsOwned owner (initIndex item) := by
  refine keeps_initIndex (keepsOwned_setVersion 0) (keepsOwned_setAliases nofun) ?_
  refine (Txn.keeps_lift _).bind fun bytes => ?_
  exact Txn.keeps_set fun s h => h.insert_plain (by decide)

theorem keepsOwned_recordSlot (slot : Nat) (id : EventId) (kind : UInt8) :
    KeepsOwned owner (recordSlot item slot id kind) := by
  refine (Txn.keeps_set fun s h => h.insert_slot _ kind id).bind fun _ => ?_
  exact keepsOwned_setVersion (slot + 1)

theorem keepsOwned_teardown : KeepsOwned owner (teardown item) :=
  keeps_teardown (fun _ => keepsOwned_delete _) fun _ => keepsOwned_delete _

theorem keepsOwned_link {x : ItemId} (hx : item.tag = (owner x).toUInt16) :
    KeepsOwned owner (link item x) := by
  refine (Txn.keeps_set fun _ h => h.insert_pointer hx).bind fun _ => ?_
  refine (Txn.keeps_query _).bind_of_ok fun hs hquery ht => keepsOwned_setAliases ?_ _ ht
  have hlist := hs.list (Txn.query_eq_ok.mp hquery).1
  intro y hy
  split_ifs at hy
  · exact hlist y hy
  · rcases List.mem_append.mp hy with hy | hy
    · exact hlist y hy
    · rwa [List.mem_singleton.mp hy]

theorem keepsOwned_unlink (x : ItemId) : KeepsOwned owner (unlink item x) := by
  refine (keepsOwned_delete _).bind fun _ => ?_
  refine (Txn.keeps_query _).bind_of_ok fun hs hquery ht => keepsOwned_setAliases ?_ _ ht
  exact fun y hy => hs.list (Txn.query_eq_ok.mp hquery).1 y (List.mem_of_mem_filter hy)

theorem keepsOwned_startIndex (event : Event) : KeepsOwned owner (startIndex item event) :=
  keeps_startIndex keepsOwned_initIndex

/-- Beside its slot an event writes at most one pointer, and that to an alias of its item. -/
theorem keepsOwned_settle {event : Event}
    (hx : ∀ {x}, event.aliasTarget = .ok x → item.tag = (owner x).toUInt16) :
    KeepsOwned owner (settle item event) := by
  refine Txn.keeps_ite keepsOwned_teardown (Txn.keeps_ite ?_ (Txn.keeps_ite ?_ (Txn.keeps_pure _)))
  · exact (Txn.keeps_lift _).bind_of_ok fun _ hlift ht =>
      keepsOwned_link (hx (Txn.lift_eq_ok.mp hlift).1) _ ht
  · exact (Txn.keeps_lift _).bind fun x => keepsOwned_unlink x

end Item

/-- The entry is an event of an item in the partition of that item, and an alias that it sets or
removes is one of the partition's own. -/
structure LogEvent.Fits (owner : ItemId → UInt8) (e : LogEvent) (found : ItemEvent) : Prop where
  itemEvent : e.itemEvent = .ok found
  tag : found.item.tag = e.id.partition.toUInt16
  target : ∀ {x}, found.event.aliasTarget = .ok x → owner x = e.id.partition

namespace LogEvent.Fits

variable {e : LogEvent} {found : ItemEvent}

theorem target_tag (h : e.Fits owner found) {x : ItemId} (hx : found.event.aliasTarget = .ok x) :
    found.item.tag = (owner x).toUInt16 := by
  rw [h.tag, h.target hx]

theorem keepsOwned (h : e.Fits owner found) : Item.KeepsOwned owner (Item.replicate e) := by
  refine Item.keeps_replicate fun other hother => ?_
  rw [h.itemEvent, Except.ok.injEq] at hother
  subst hother
  exact ⟨Item.keepsOwned_startIndex _, fun slot => Item.keepsOwned_recordSlot slot _ _,
    Item.keepsOwned_settle h.target_tag⟩

/-- The takeover of an event stays within the part of its partition. -/
theorem local_replicate (h : e.Fits owner found) (howned : Owned owner s.keys) :
    (Item.replicate e).Local (Key.Part owner e.id.partition) s := by
  have hsub : ∀ k, Key.Part owner e.id.partition (Key.sub found.item k) := Key.part_sub h.tag
  rw [Item.replicate_eq, h.itemEvent]
  refine (Txn.local_lift _).bind fun hlift => ?_
  obtain ⟨hfound, rfl⟩ := Txn.lift_eq_ok.mp hlift
  cases hfound
  refine (Item.local_startIndex hsub _).bind fun hstart => ?_
  have howned₁ := (Item.keepsOwned_startIndex _).of_ok howned hstart
  refine (Txn.local_query fun keys hkeys => Item.version_agree hkeys (hsub .version)).bind
    fun hquery => ?_
  obtain ⟨-, rfl⟩ := Txn.query_eq_ok.mp hquery
  refine (Item.local_recordSlot hsub _ _ _).bind fun hrecord => ?_
  have howned₂ := (Item.keepsOwned_recordSlot _ _ _).of_ok howned₁ hrecord
  refine Item.local_settle hsub (fun hlist x hx => Key.part_pointer ?_)
    fun hx => Key.part_pointer (h.target hx)
  have htag := howned₂.list hlist x hx
  rw [h.tag] at htag
  exact (UInt8.toUInt16_inj.mp htag).symm

end LogEvent.Fits
end Chronicle
