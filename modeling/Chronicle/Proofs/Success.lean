import Mathlib
import Chronicle.Proofs.Replay
import Chronicle.Proofs.Slots

/-!
# Operations that succeed

The parts of an operation that write the index of an item are refused only for a key beyond the limit
or a slot that has no number. For an item whose name leaves room for its keys they succeed.
-/
namespace Chronicle

/-! ## Records that can be written -/

namespace Packed

theorem pack_nil {α : Type} [Packed α] :
    pack ([] : List α) = .ok (Bytes.littleEndian 8 0) := by
  change packList pack [] = _
  rw [packList, List.length_nil, packLength, if_pos (by decide)]
  rfl

end Packed

theorem record_of_pack {α : Type} [Packed α] {x : α} {bytes : Bytes} (h : Packed.pack x = .ok bytes) :
    record x = .ok bytes := by
  rw [record, Packed.encode, h]
  rfl

theorem record_nil {α : Type} [Packed α] : record ([] : List α) = .ok (List.replicate 8 0) :=
  record_of_pack Packed.pack_nil

/-! ## Key spaces that operations leave -/

namespace KeySpace

/-- With the index of an item that has no events. -/
def withIndex (keys : KeySpace) (item : ItemId) : KeySpace :=
  ((keys.insert (Key.version item) (0 :: Counter.encode 0)).insert (Key.aliases item)
    (0 :: List.replicate 8 0)).insert (Key.views item) (0 :: List.replicate 8 0)

/-- With a slot that points at a log entry, and the version past it. -/
def withSlot (keys : KeySpace) (item : ItemId) (slot : Nat) (id : EventId) (kind : UInt8) :
    KeySpace :=
  (keys.insert (Key.slot item (UInt64.ofNat slot)) (kind :: Key.log id)).insert (Key.version item)
    (0 :: Counter.encode (UInt64.ofNat (slot + 1)))

end KeySpace

/-! ## Parts of an operation -/

theorem Txn.forM_delete {α : Type} {f : α → Bytes} (hf : ∀ x, f x ≠ []) (xs : List α) (s : Session) :
    ∃ t, xs.forM (fun x => delete (f x)) s = .ok () t ∧
      ∀ key, t.keys.stored? key = if ∃ x ∈ xs, f x = key then none else s.keys.stored? key := by
  induction xs generalizing s with
  | nil => exact ⟨s, rfl, fun key => by simp⟩
  | cons x xs ih =>
    obtain ⟨t, hrest, hgone⟩ := ih { s with keys := s.keys.erase (f x) }
    refine ⟨t, Txn.bind_eq_ok.mpr ⟨(), _, Txn.delete_eq_ok.mpr ⟨hf x, rfl⟩, hrest⟩, fun key => ?_⟩
    rw [hgone, KeySpace.stored?_erase]
    by_cases hx : f x = key <;> simp [hx]

/-- Keys are deleted one after the other, and then one more. -/
theorem Txn.sweep {α : Type} {f : α → Bytes} {k : Bytes} (hf : ∀ x, f x ≠ []) (hk : k ≠ [])
    (xs : List α) (s : Session) :
    ∃ u t, xs.forM (fun x => delete (f x)) s = .ok () u ∧ delete k u = .ok () t ∧
      ∀ key, t.keys.stored? key =
        if k = key ∨ ∃ x ∈ xs, f x = key then none else s.keys.stored? key := by
  obtain ⟨u, hforM, hgone⟩ := forM_delete hf xs s
  refine ⟨u, _, hforM, Txn.delete_eq_ok.mpr ⟨hk, rfl⟩, fun key => ?_⟩
  rw [KeySpace.stored?_erase, hgone]
  by_cases hkey : k = key <;> simp [hkey]

namespace Item

variable {item : ItemId} {s t : Session} {value : Bytes} {mark : UInt8} {slot : Nat}

theorem viewList_of_some {keys : KeySpace} {names : List Bytes}
    (h : keys.stored? (Key.views item) = some (0 :: value)) (hvalue : recorded value = .ok names) :
    viewList keys item = .ok names := by
  have hentry : keys.get (Key.views item) = .ok (some ⟨0, value⟩) :=
    KeySpace.get_eq_some (Key.index_ne_nil _ _ _) h
  rw [viewList, listAt, hentry]
  exact hvalue

/-- The name leaves room for the number of a slot. -/
theorem set_of_length (hlength : item.name.length + 12 ≤ Txn.keyLimit) {k : SubKey}
    (hk : k.suffix.length ≤ 8) : Txn.set (Key.sub item k) value mark s =
      .ok () { s with keys := s.keys.insert (Key.sub item k) (mark :: value) } := by
  refine Txn.set_eq_ok.mpr ⟨⟨Key.index_ne_nil _ _ _, ?_⟩, rfl⟩
  rw [Key.length_sub]
  omega

theorem initIndex_of_length (h : item.name.length + 12 ≤ Txn.keyLimit) :
    initIndex item s = .ok () { s with keys := s.keys.withIndex item } := by
  refine Txn.bind_eq_ok.mpr ⟨(), _, set_of_length h (k := .version) (Nat.zero_le _), ?_⟩
  refine Txn.bind_eq_ok.mpr ⟨(), _, Txn.bind_eq_ok.mpr ⟨_, _, Txn.lift_eq_ok.mpr ⟨record_nil, rfl⟩,
    set_of_length h (k := .aliases) (Nat.zero_le _)⟩, ?_⟩
  exact Txn.bind_eq_ok.mpr ⟨_, _, Txn.lift_eq_ok.mpr ⟨record_nil, rfl⟩,
    set_of_length h (k := .view []) (Nat.zero_le _)⟩

theorem keys_of_initIndex {v : Unit} (h : initIndex item s = .ok v t) :
    t.keys = s.keys.withIndex item := by
  obtain ⟨_, s₁, hversion, h⟩ := Txn.bind_eq_ok.mp h
  obtain ⟨-, rfl⟩ := setVersion_eq_ok hversion
  obtain ⟨_, s₂, haliases, hviews⟩ := Txn.bind_eq_ok.mp h
  obtain ⟨aliases, hempty, rfl⟩ := setList_eq_ok haliases
  obtain ⟨views, hempty', rfl⟩ := setList_eq_ok hviews
  rw [record_nil, Except.ok.injEq] at hempty hempty'
  subst hempty hempty'
  rfl

theorem stored?_withIndex {keys : KeySpace} (k : SubKey) :
    (keys.withIndex item).stored? (Key.sub item k) =
      if k = .version then some (0 :: Counter.encode 0)
      else if k = .aliases ∨ k = .view [] then some (0 :: List.replicate 8 0)
      else keys.stored? (Key.sub item k) := by
  change (((keys.insert (Key.sub item .version) _).insert (Key.sub item .aliases) _).insert
    (Key.sub item (.view [])) _).stored? _ = _
  simp only [KeySpace.stored?_insert, Key.sub_inj]
  cases k with
  | version | aliases | slot => simp
  | view name => by_cases hname : name = [] <;> simp [hname, eq_comm]

theorem stored?_initIndex {v : Unit} (h : initIndex item s = .ok v t) (k : SubKey) :
    t.keys.stored? (Key.sub item k) =
      if k = .version then some (0 :: Counter.encode 0)
      else if k = .aliases ∨ k = .view [] then some (0 :: List.replicate 8 0)
      else s.keys.stored? (Key.sub item k) := by
  rw [keys_of_initIndex h, stored?_withIndex]

theorem version_of_initIndex {v : Unit} (h : initIndex item s = .ok v t) :
    version t.keys item = .ok 0 :=
  version_of_stored (by decide) (stored?_initIndex h .version)

theorem recordSlot_of_length (h : item.name.length + 12 ≤ Txn.keyLimit)
    (hslot : slot + 1 < Bytes.capacity 8) (id : EventId) (kind : UInt8) : recordSlot item slot id kind s =
      .ok () { s with keys := s.keys.withSlot item slot id kind } := by
  have hk : (SubKey.slot (UInt64.ofNat slot)).suffix.length ≤ 8 :=
    (Bytes.length_bigEndian _ _).le
  refine Txn.bind_eq_ok.mpr ⟨(), _, set_of_length h hk, ?_⟩
  rw [setVersion, if_pos hslot]
  exact set_of_length h (k := .version) (Nat.zero_le _)

/-- A teardown brings nothing back. -/
theorem keeps_none_teardown (key : Bytes) :
    (teardown item).Keeps fun s => s.keys.stored? key = none := by
  have hdelete : ∀ other, (Txn.delete other).Keeps fun s => s.keys.stored? key = none :=
    fun other => Txn.keeps_delete fun s hs => by rw [KeySpace.stored?_erase, hs, ite_self]
  exact keeps_teardown (fun k => hdelete _) fun x => hdelete _

/-- The keys of an index that a teardown deletes, if it has these views and so many slots. -/
def Torn (names : List Bytes) (count : Nat) : SubKey → Prop
  | .version | .aliases => True
  | .slot n => n.toNat < count
  | .view name => name = [] ∨ name ∈ names

/-- Where the list of views stands, neither the pointers nor the list of aliases do. -/
theorem viewList_of_gone {keys rest : KeySpace} {xs : List ItemId}
    (h : ∀ key, rest.stored? key = if Key.aliases item = key ∨ ∃ x ∈ xs, Key.pointer x = key then none
      else keys.stored? key) : viewList rest item = viewList keys item := by
  refine listAt_congr ((h _).trans (if_neg ?_))
  rintro (heq | ⟨x, -, heq⟩)
  · exact Key.sub_ne (x := .aliases) (y := .view []) nofun heq
  · exact Key.pointer_ne_sub item x (.view []) heq

/-- With the index goes every view that the item has registered, and the pointers of its aliases. -/
theorem teardown_of_lists {xs : List ItemId} {names : List Bytes} {n : Option Nat}
    (haliases : aliasList s.keys item = .ok xs) (hviews : viewList s.keys item = .ok names)
    (hversion : version? s.keys item = .ok n) :
    ∃ t, teardown item s = .ok () t ∧
      (∀ k, Torn names (n.getD 0) k → t.keys.stored? (Key.sub item k) = none) ∧
      ∀ x, t.keys.stored? (Key.pointer x) =
        if x ∈ xs then none else s.keys.stored? (Key.pointer x) := by
  -- the list that steers a loop and the version are still there when they are read
  obtain ⟨u₁, s₁, hpointers, hlist₁, hgone₁⟩ := Txn.sweep (f := Key.pointer)
    (k := Key.aliases item) (fun _ => nofun) (Key.index_ne_nil _ _ _) xs s
  have hviews₁ : viewList s₁.keys item = .ok names := (viewList_of_gone hgone₁).trans hviews
  obtain ⟨u₂, s₂, hnames, hlist₂, hgone₂⟩ := Txn.sweep (f := Key.view item)
    (k := Key.views item) (Key.index_ne_nil item _) (Key.index_ne_nil _ _ _) names s₁
  have hversion₂ : version? s₂.keys item = .ok n := by
    rw [← hversion, version?_congr]
    rw [hgone₂, if_neg, hgone₁, if_neg]
    · rintro (heq | ⟨x, -, heq⟩)
      · exact Key.sub_ne (x := .aliases) (y := .version) nofun heq
      · exact Key.pointer_ne_sub item x .version heq
    · rintro (heq | ⟨name, -, heq⟩)
      · exact Key.sub_ne (x := .view []) (y := .version) nofun heq
      · exact Key.sub_ne (x := .view name) (y := .version) nofun heq
  obtain ⟨u₃, t, hslots, hcounter, hgone₃⟩ := Txn.sweep
    (f := fun n => Key.slot item (UInt64.ofNat n)) (k := Key.version item)
    (fun _ => Key.index_ne_nil item _ _) (Key.index_ne_nil _ _ _) (List.range (n.getD 0)) s₂
  refine ⟨t, ?_, fun k hk => ?_, fun x => ?_⟩
  · refine Txn.bind_eq_ok.mpr ⟨xs, s, Txn.query_eq_ok.mpr ⟨haliases, rfl⟩, ?_⟩
    refine Txn.bind_eq_ok.mpr ⟨(), u₁, hpointers, Txn.bind_eq_ok.mpr ⟨(), s₁, hlist₁, ?_⟩⟩
    refine Txn.bind_eq_ok.mpr ⟨names, s₁, Txn.query_eq_ok.mpr ⟨hviews₁, rfl⟩, ?_⟩
    refine Txn.bind_eq_ok.mpr ⟨(), u₂, hnames, Txn.bind_eq_ok.mpr ⟨(), s₂, hlist₂, ?_⟩⟩
    refine Txn.bind_eq_ok.mpr ⟨n, s₂, Txn.query_eq_ok.mpr ⟨hversion₂, rfl⟩, ?_⟩
    exact Txn.bind_eq_ok.mpr ⟨(), u₃, hslots, hcounter⟩
  · -- each key is deleted at some point, and no later deletion brings it back
    rw [hgone₃, hgone₂, hgone₁]
    cases k with
    | version => exact if_pos (.inl rfl)
    | aliases =>
      have hlist : Key.aliases item = Key.sub item .aliases ∨
          ∃ x ∈ xs, Key.pointer x = Key.sub item .aliases := .inl rfl
      rw [if_pos hlist, ite_self, ite_self]
    | slot m =>
      refine if_pos (.inr ⟨m.toNat, List.mem_range.mpr hk, ?_⟩)
      rw [UInt64.ofNat_toNat]
      rfl
    | view name =>
      have hview : Key.views item = Key.sub item (.view name) ∨
          ∃ other ∈ names, Key.view item other = Key.sub item (.view name) := by
        rcases hk with rfl | hname
        · exact .inl rfl
        · exact .inr ⟨name, hname, rfl⟩
      rw [if_pos hview, ite_self]
  · -- after the first loop no pointer is written
    have hne : ∀ k, Key.sub item k ≠ Key.pointer x := Key.sub_ne_pointer item x
    rw [hgone₃, if_neg, hgone₂, if_neg, hgone₁]
    · refine if_congr ⟨?_, fun hx => .inr ⟨x, hx, rfl⟩⟩ rfl rfl
      rintro (heq | ⟨y, hy, heq⟩)
      · exact absurd heq (hne .aliases)
      · exact Key.pointer_injective heq ▸ hy
    · rintro (heq | ⟨name, -, heq⟩)
      · exact hne (.view []) heq
      · exact hne (.view name) heq
    · rintro (heq | ⟨m, -, heq⟩)
      · exact hne .version heq
      · exact hne (.slot _) heq

end Item
end Chronicle
