import Mathlib
import Chronicle.Proofs.Directory
import Chronicle.Proofs.Takeover

/-!
# Directories in stores

What a key space holds beside its log, read as a directory, and what each part of an operation does
to it. The items that the directory is about must not share any key.
-/
namespace Chronicle

namespace Item

/-- What the index of an item says: that there is no such item, or how many slots it has and which
aliases. The list of its views can be read. -/
def Indexed (keys : KeySpace) (item : ItemId) : Option Listing → Prop
  | none => isThere keys item = .ok false
  | some listing => version keys item = .ok listing.slots ∧
    aliasList keys item = .ok listing.aliases ∧ ∃ names, viewList keys item = .ok names

variable {a b : KeySpace} {s t : Session} {item x : ItemId} {listing : Listing}
  {found : Option Listing}

theorem Indexed.congr (h : Indexed a item found)
    (hsub : ∀ k, b.stored? (Key.sub item k) = a.stored? (Key.sub item k)) :
    Indexed b item found := by
  cases found with
  | none => exact (KeySpace.contains_congr (hsub .version)).trans h
  | some listing =>
    obtain ⟨hversion, haliases, names, hviews⟩ := h
    refine ⟨(version_congr (hsub .version)).trans hversion,
      (aliasList_congr (hsub .aliases)).trans haliases, names, ?_⟩
    exact (listAt_congr (hsub (.view []))).trans hviews

theorem Indexed.isThere (h : Indexed a item found) : isThere a item = .ok found.isSome := by
  cases found with
  | none => exact h
  | some listing => exact (isThere_of_version h.1).1

theorem Indexed.eq_none (h : Indexed a item found) (hthere : Item.isThere a item = .ok false) :
    found = none := by
  rw [h.isThere, Except.ok.injEq] at hthere
  simpa using hthere

theorem Indexed.eq_some {n : Nat} (h : Indexed a item found) (hversion : version a item = .ok n) :
    ∃ listing, found = some listing ∧ listing.slots = n := by
  cases found with
  | none =>
    have hthere := (isThere_of_version hversion).1
    rw [show Item.isThere a item = .ok false from h] at hthere
    cases hthere
  | some listing =>
    have hslots := h.1
    rw [hversion, Except.ok.injEq] at hslots
    exact ⟨listing, rfl, hslots.symm⟩

/-! ## The parts of an operation, on their own item -/

theorem indexed_initIndex {v : Unit} (h : initIndex item s = .ok v t) :
    Indexed t.keys item (some ⟨0, []⟩) := by
  refine ⟨version_of_initIndex h, ?_, [], ?_⟩
  · rw [aliasList_of_some (stored?_initIndex h .aliases), recorded_record record_nil]
  · exact viewList_of_some (stored?_initIndex h (.view [])) (recorded_record record_nil)

theorem indexed_recordSlot {id : EventId} {kind : UInt8} {v : Unit}
    (h : recordSlot item listing.slots id kind s = .ok v t)
    (hindexed : Indexed s.keys item (some listing)) :
    Indexed t.keys item (some { listing with slots := listing.slots + 1 }) := by
  obtain ⟨-, haliases, names, hviews⟩ := hindexed
  refine ⟨(recordSlot_spec h).1, ?_, names, ?_⟩
  · exact (aliasList_congr (recordSlot_frame h (k := .aliases) nofun nofun)).trans haliases
  · exact (listAt_congr (recordSlot_frame h (k := .view []) nofun nofun)).trans hviews

/-- A new list of aliases. -/
theorem setAliases_spec {xs : List ItemId} {v : Unit}
    (h : setList (Key.aliases item) xs s = .ok v t) :
    aliasList t.keys item = .ok xs ∧
      ∀ k, k ≠ .aliases → t.keys.stored? (Key.sub item k) = s.keys.stored? (Key.sub item k) := by
  obtain ⟨bytes, hrecord, rfl⟩ := setList_eq_ok h
  refine ⟨?_, fun _ => KeySpace.stored?_insert_sub (k := .aliases)⟩
  rw [aliasList_of_some (KeySpace.stored?_insert_self _ _ _), recorded_record hrecord]

theorem indexed_setAliases {xs : List ItemId} {v : Unit}
    (h : setList (Key.aliases item) xs s = .ok v t) (hindexed : Indexed s.keys item (some listing)) :
    Indexed t.keys item (some { listing with aliases := xs }) := by
  obtain ⟨hversion, -, names, hviews⟩ := hindexed
  obtain ⟨haliases, hother⟩ := setAliases_spec h
  refine ⟨?_, haliases, names, ?_⟩
  · exact (version_congr (hother .version nofun)).trans hversion
  · exact (listAt_congr (hother (.view []) nofun)).trans hviews

theorem link_eq_ok {v : Unit} : link item x s = .ok v t ↔
    (Key.pointer x).length ≤ Txn.keyLimit ∧ ∃ xs, aliasList s.keys item = .ok xs ∧
      setList (Key.aliases item) (if x ∈ xs then xs else xs ++ [x])
        { s with keys := s.keys.insert (Key.pointer x) (0 :: item.encode) } = .ok v t := by
  have hlist : aliasList (s.keys.insert (Key.pointer x) (0 :: item.encode)) item =
      aliasList s.keys item :=
    aliasList_congr (KeySpace.stored?_insert_of_ne _ _ (Key.pointer_ne_sub item x .aliases))
  constructor
  · intro h
    obtain ⟨_, u, hset, h⟩ := Txn.bind_eq_ok.mp h
    obtain ⟨⟨-, hlength⟩, rfl⟩ := Txn.set_eq_ok.mp hset
    obtain ⟨xs, w, hquery, h⟩ := Txn.bind_eq_ok.mp h
    obtain ⟨hxs, rfl⟩ := Txn.query_eq_ok.mp hquery
    exact ⟨hlength, xs, hlist.symm.trans hxs, h⟩
  · rintro ⟨hlength, xs, hxs, h⟩
    have hkey : Key.pointer x ≠ [] := nofun
    exact Txn.bind_eq_ok.mpr ⟨(), _, Txn.set_eq_ok.mpr ⟨⟨hkey, hlength⟩, rfl⟩,
      Txn.bind_eq_ok.mpr ⟨xs, _, Txn.query_eq_ok.mpr ⟨hlist.trans hxs, rfl⟩, h⟩⟩

theorem unlink_eq_ok {v : Unit} : unlink item x s = .ok v t ↔
    ∃ xs, aliasList s.keys item = .ok xs ∧
      setList (Key.aliases item) (xs.filter fun other => other ≠ x)
        { s with keys := s.keys.erase (Key.pointer x) } = .ok v t := by
  have hlist : aliasList (s.keys.erase (Key.pointer x)) item = aliasList s.keys item :=
    aliasList_congr (KeySpace.stored?_erase_of_ne _ (Key.pointer_ne_sub item x .aliases))
  constructor
  · intro h
    obtain ⟨_, u, hdelete, h⟩ := Txn.bind_eq_ok.mp h
    obtain ⟨-, rfl⟩ := Txn.delete_eq_ok.mp hdelete
    obtain ⟨xs, w, hquery, h⟩ := Txn.bind_eq_ok.mp h
    obtain ⟨hxs, rfl⟩ := Txn.query_eq_ok.mp hquery
    exact ⟨xs, hlist.symm.trans hxs, h⟩
  · rintro ⟨xs, hxs, h⟩
    have hkey : Key.pointer x ≠ [] := nofun
    exact Txn.bind_eq_ok.mpr ⟨(), _, Txn.delete_eq_ok.mpr ⟨hkey, rfl⟩,
      Txn.bind_eq_ok.mpr ⟨xs, _, Txn.query_eq_ok.mpr ⟨hlist.trans hxs, rfl⟩, h⟩⟩

theorem pointer_of_link {v : Unit} (h : link item x s = .ok v t) (y : ItemId) :
    t.keys.stored? (Key.pointer y) =
      if y = x then some (0 :: item.encode) else s.keys.stored? (Key.pointer y) := by
  obtain ⟨-, xs, -, hset⟩ := link_eq_ok.mp h
  obtain ⟨bytes, -, rfl⟩ := setList_eq_ok hset
  have hne : Key.aliases item ≠ Key.pointer y := Key.sub_ne_pointer item y .aliases
  rw [KeySpace.stored?_insert_of_ne _ _ hne, KeySpace.stored?_insert]
  simp only [Key.pointer_inj, eq_comm]

theorem pointer_of_unlink {v : Unit} (h : unlink item x s = .ok v t) (y : ItemId) :
    t.keys.stored? (Key.pointer y) =
      if y = x then none else s.keys.stored? (Key.pointer y) := by
  obtain ⟨xs, -, hset⟩ := unlink_eq_ok.mp h
  obtain ⟨bytes, -, rfl⟩ := setList_eq_ok hset
  have hne : Key.aliases item ≠ Key.pointer y := Key.sub_ne_pointer item y .aliases
  rw [KeySpace.stored?_insert_of_ne _ _ hne, KeySpace.stored?_erase]
  simp only [Key.pointer_inj, eq_comm]

theorem indexed_link {v : Unit} (h : link item x s = .ok v t)
    (hindexed : Indexed s.keys item (some listing)) :
    Indexed t.keys item (some { listing with
      aliases := if x ∈ listing.aliases then listing.aliases else listing.aliases ++ [x] }) := by
  obtain ⟨-, xs, hlist, hset⟩ := link_eq_ok.mp h
  rw [hindexed.2.1, Except.ok.injEq] at hlist
  subst hlist
  apply indexed_setAliases hset
  exact hindexed.congr fun k => KeySpace.stored?_insert_of_ne _ _ (Key.pointer_ne_sub item x k)

theorem indexed_unlink {v : Unit} (h : unlink item x s = .ok v t)
    (hindexed : Indexed s.keys item (some listing)) :
    Indexed t.keys item (some { listing with
      aliases := listing.aliases.filter fun other => other ≠ x }) := by
  obtain ⟨xs, hlist, hset⟩ := unlink_eq_ok.mp h
  rw [hindexed.2.1, Except.ok.injEq] at hlist
  subst hlist
  apply indexed_setAliases hset
  exact hindexed.congr fun k => KeySpace.stored?_erase_of_ne _ (Key.pointer_ne_sub item x k)

/-! ## Views -/

/-- The list of the item's views can be read. -/
def Listed (item : ItemId) (s : Session) : Prop := ∃ names, viewList s.keys item = .ok names

/-- Only a view without a name would stand in the place of the list. -/
theorem listed_setCheckpoint {name : Bytes} (hname : name ≠ []) (c : Checkpoint) :
    (setCheckpoint item name c).Keeps (Listed item) := by
  refine (Txn.keeps_lift _).bind fun bytes => Txn.keeps_set ?_
  rintro s ⟨names, hnames⟩
  refine ⟨names, (listAt_congr (KeySpace.stored?_insert_of_ne _ _ ?_)).trans hnames⟩
  exact Key.sub_ne (x := .view name) (y := .view []) (by simpa using hname)

theorem listed_setViews (names : List Bytes) :
    (setList (Key.views item) names).Keeps (Listed item) := by
  refine (Txn.keeps_lift _).bind_of_ok fun _ hlift ht => ?_
  refine Txn.keeps_set (I := Listed item) (fun s _ => ⟨names, ?_⟩) _ ht
  exact viewList_of_some (KeySpace.stored?_insert_self _ _ _)
    (recorded_record (Txn.lift_eq_ok.mp hlift).1)

theorem listed_sync {σ : Type} {name : Bytes} {v : View σ} {initial : σ} :
    (sync item name v initial).Keeps (Listed item) :=
  keeps_sync v initial listed_setCheckpoint listed_setViews

end Item

/-! ## Key spaces and directories -/

/-- No two of the items share a key. -/
def Separate (P : ItemId → Prop) : Prop := ∀ a b, P a → P b → a ≠ b → a.Apart b

/-- The key space holds the directory: the indexes of the items, all pointers, and no item beside
those. -/
structure Directory.Shown (P : ItemId → Prop) (keys : KeySpace) (d : Directory) : Prop where
  index : ∀ item, P item → Item.Indexed keys item (d.listings item)
  pointer : ∀ x, keys.stored? (Key.pointer x) = (d.pointers x).map fun item => 0 :: item.encode
  outside : ∀ item, ¬ P item → d.listings item = none

namespace Directory

variable {P : ItemId → Prop} {s t : Session} {d d' : Directory} {a x : ItemId}

theorem shown_empty : Shown P .empty .empty where
  index _ _ := Item.isThere_eq_false_iff.mpr (KeySpace.stored?_empty _)
  pointer _ := KeySpace.stored?_empty _
  outside _ _ := rfl

namespace Shown

/-- A change that touches the keys of one item and some pointers. -/
theorem step (h : Shown P s.keys d) (hP : Separate P) (ha : P a)
    (hwithin : s.Within (Item.Touches a) t) (hindex : Item.Indexed t.keys a (d'.listings a))
    (hothers : ∀ b, b ≠ a → d'.listings b = d.listings b)
    (hpointers : ∀ x, t.keys.stored? (Key.pointer x) =
      (d'.pointers x).map fun item => 0 :: item.encode) : Shown P t.keys d' := by
  refine ⟨?_, hpointers, ?_⟩
  · intro b hb
    by_cases heq : b = a
    · rw [heq]
      exact hindex
    · rw [hothers b heq]
      apply (h.index b hb).congr
      intro k
      apply hwithin.frame
      rintro (⟨k', hk⟩ | ⟨x, hx⟩ | ⟨id, hid⟩)
      · exact hP a b ha hb (Ne.symm heq) k' k hk.symm
      · exact Key.sub_ne_pointer b x k hx
      · exact Key.sub_ne_log id b k hid
  · intro b hb
    have hne : b ≠ a := fun heq => hb (heq ▸ ha)
    rw [hothers b hne]
    exact h.outside b hb

/-- A change that touches no pointer. -/
theorem step_index (h : Shown P s.keys d) (hP : Separate P) (ha : P a)
    (hwithin : s.Within (fun key => (∃ k, key = Key.sub a k) ∨ ∃ id, key = Key.log id) t)
    (hindex : Item.Indexed t.keys a (d'.listings a))
    (hothers : ∀ b, b ≠ a → d'.listings b = d.listings b) (hpointers : d'.pointers = d.pointers) :
    Shown P t.keys d' := by
  refine h.step hP ha (hwithin.mono ?_) hindex hothers ?_
  · rintro key (⟨k, hk⟩ | ⟨id, hid⟩)
    · exact .inl ⟨k, hk⟩
    · exact .inr (.inr ⟨id, hid⟩)
  · intro x
    rw [hpointers, ← h.pointer x]
    apply hwithin.frame
    rintro (⟨k, hk⟩ | ⟨id, hid⟩)
    · exact Key.pointer_ne_sub a x k hk
    · exact Key.pointer_ne_log id x hid

/-- A change of the log alone. -/
theorem of_log (h : Shown P s.keys d) (hwithin : s.Within (fun key => ∃ id, key = Key.log id) t) :
    Shown P t.keys d where
  index item hitem := (h.index item hitem).congr fun k => hwithin.frame fun ⟨id, hid⟩ =>
    Key.sub_ne_log id item k hid
  pointer x := (hwithin.frame fun ⟨id, hid⟩ => Key.pointer_ne_log id x hid).trans (h.pointer x)
  outside := h.outside

variable (h : Shown P s.keys d) (hP : Separate P) (ha : P a)

include h hP ha

theorem initIndex {v : Unit} (hrun : Item.initIndex a s = .ok v t) : Shown P t.keys (d.start a) := by
  have hwithin := (Txn.Keeps.writes_of_ok (Item.writes_initIndex
    (F := fun key => (∃ k, key = Key.sub a k) ∨ ∃ id, key = Key.log id)
    fun k => .inl ⟨k, rfl⟩) hrun).within
  apply h.step_index hP ha hwithin
  · have hself : (d.start a).listings a = some ⟨0, []⟩ := Function.update_self _ _ _
    rw [hself]
    exact Item.indexed_initIndex hrun
  · exact fun b hb => Function.update_of_ne hb _ _
  · rfl

theorem recordSlot {listing : Listing} {id : EventId} {kind : UInt8} {v : Unit}
    (hlisting : d.listings a = some listing) (hlog : s.keys.stored? (Key.log id) ≠ none)
    (hrun : Item.recordSlot a listing.slots id kind s = .ok v t) : Shown P t.keys (d.count a) := by
  have hwithin := ((Item.writes_recordSlot
    (F := fun key => (∃ k, key = Key.sub a k) ∨ ∃ id, key = Key.log id)
    (fun k => .inl ⟨k, rfl⟩) hlog).of_ok .refl hrun).within
  have hindex := h.index a ha
  rw [hlisting] at hindex
  apply h.step_index hP ha hwithin
  · rw [count, listings_modify_self, hlisting]
    exact Item.indexed_recordSlot hrun hindex
  · exact fun b hb => listings_modify_of_ne hb
  · rfl

theorem append {listing : Listing} {event : Event} {v : Unit}
    (hlisting : d.listings a = some listing)
    (hrun : Item.append a listing.slots event s = .ok v t) : Shown P t.keys (d.count a) := by
  obtain ⟨partition, payload, id, u, -, -, hput, hrecord⟩ := Item.append_eq_ok hrun
  have hlogged := (Txn.Keeps.writes_of_ok (Log.writes_put (F := fun key => ∃ id, key = Key.log id)
    _ _ fun id => ⟨id, rfl⟩) hput).within
  have hlog : u.keys.stored? (Key.log id) ≠ none := by
    obtain ⟨-, -, -, -, rfl⟩ := Log.put_eq_ok hput
    rw [KeySpace.stored?_insert_self]
    exact Option.some_ne_none _
  exact (h.of_log hlogged).recordSlot hP ha hlisting hlog hrecord

theorem putNext {event : Event} {slot : Nat} (hrun : Item.putNext a event s = .ok slot t) :
    d.listings a ≠ none ∧ Shown P t.keys (d.count a) := by
  obtain ⟨hversion, happend⟩ := Item.putNext_eq_ok.mp hrun
  obtain ⟨listing, hlisting, rfl⟩ := (h.index a ha).eq_some hversion
  exact ⟨by rw [hlisting]; exact Option.some_ne_none _, h.append hP ha hlisting happend⟩

theorem link {v : Unit} (hthere : d.listings a ≠ none) (hrun : Item.link a x s = .ok v t) :
    Shown P t.keys (d.link a x) := by
  have hwithin := (Txn.Keeps.writes_of_ok (Item.writes_link
    (Item.touches_pointer x) (Item.touches_sub .aliases)) hrun).within
  obtain ⟨listing, hlisting⟩ := Option.ne_none_iff_exists'.mp hthere
  have hindex := h.index a ha
  rw [hlisting] at hindex
  apply h.step hP ha hwithin
  · have hself : (d.link a x).listings a = some { listing with
        aliases := if x ∈ listing.aliases then listing.aliases else listing.aliases ++ [x] } := by
      simp [Directory.link, modify, hlisting]
    rw [hself]
    exact Item.indexed_link hrun hindex
  · exact fun b hb => listings_modify_of_ne hb
  · intro y
    rw [Item.pointer_of_link hrun, pointers_link]
    split_ifs with hy
    · rfl
    · exact h.pointer y

theorem unlink {v : Unit} (hthere : d.listings a ≠ none) (hrun : Item.unlink a x s = .ok v t) :
    Shown P t.keys (d.unlink a x) := by
  have hwithin := (Txn.Keeps.writes_of_ok (Item.writes_unlink
    (Item.touches_pointer x) (Item.touches_sub .aliases)) hrun).within
  obtain ⟨listing, hlisting⟩ := Option.ne_none_iff_exists'.mp hthere
  have hindex := h.index a ha
  rw [hlisting] at hindex
  apply h.step hP ha hwithin
  · have hself : (d.unlink a x).listings a = some { listing with
        aliases := listing.aliases.filter fun y => y ≠ x } := by
      simp [Directory.unlink, modify, hlisting]
    rw [hself]
    exact Item.indexed_unlink hrun hindex
  · exact fun b hb => listings_modify_of_ne hb
  · intro y
    rw [Item.pointer_of_unlink hrun, pointers_unlink]
    split_ifs with hy
    · rfl
    · exact h.pointer y

theorem teardown {v : Unit} (hthere : d.listings a ≠ none) (hrun : Item.teardown a s = .ok v t) :
    Shown P t.keys (d.drop a) := by
  have hwithin := (Txn.Keeps.writes_of_ok (Item.writes_teardown
    Item.touches_sub Item.touches_pointer) hrun).within
  obtain ⟨listing, hlisting⟩ := Option.ne_none_iff_exists'.mp hthere
  have hindex := h.index a ha
  rw [hlisting] at hindex
  obtain ⟨hversion, haliases, names, hviews⟩ := hindex
  apply h.step hP ha hwithin
  · have hself : (d.drop a).listings a = none := Function.update_self _ _ _
    rw [hself]
    exact (Item.teardown_spec hrun).1
  · exact fun b hb => Function.update_of_ne hb _ _
  · intro x
    obtain ⟨u, hteardown, -, hpointers⟩ :=
      Item.teardown_of_lists haliases hviews (Item.version?_of_version hversion)
    rw [hrun, EStateM.Result.ok.injEq] at hteardown
    rw [hteardown.2, hpointers, h.pointer, pointers_drop, aliases_of_listing hlisting]
    split_ifs
    · rfl
    · rfl

theorem sync {σ : Type} {name : Bytes} {v : View σ} {initial state : σ}
    (hrun : Item.sync a name v initial s = .ok state t) : Shown P t.keys d := by
  have hwithin := (Txn.Keeps.writes_of_ok (Item.writes_sync
    (F := fun key => ∃ name, key = Key.view a name) name v initial fun name => ⟨name, rfl⟩) hrun).within
  have hother : ∀ k, (∀ name, k ≠ .view name) →
      t.keys.stored? (Key.sub a k) = s.keys.stored? (Key.sub a k) := by
    intro k hk
    apply hwithin.frame
    rintro ⟨name, heq⟩
    exact hk name (Key.sub_injective (y := .view name) heq)
  apply h.step_index hP ha (hwithin.mono fun key ⟨name, hname⟩ => .inl ⟨.view name, hname⟩)
  · have hindex := h.index a ha
    cases hlisting : d.listings a with
    | none =>
      rw [hlisting] at hindex
      exact (KeySpace.contains_congr (hother .version nofun)).trans hindex
    | some listing =>
      rw [hlisting] at hindex
      obtain ⟨hversion, haliases, hviews⟩ := hindex
      exact ⟨(Item.version_congr (hother .version nofun)).trans hversion,
        (Item.aliasList_congr (hother .aliases nofun)).trans haliases,
        Item.listed_sync.of_ok hviews hrun⟩
  · exact fun _ _ => rfl
  · rfl

end Shown
end Directory
end Chronicle
