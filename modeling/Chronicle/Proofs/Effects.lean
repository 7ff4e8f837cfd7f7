import Mathlib
import Chronicle.Item.Event
import Chronicle.Proofs.Directory

/-!
# Effects of events

What the events of items make of a directory, whichever store they come to. A listing depends on the
events of its own item alone, so that the events of other partitions may come before or after them.
Pointers are another matter: two partitions that have used the same alias both write its pointer.
-/
namespace Chronicle

inductive Effect
  | create (item : ItemId)
  | count (item : ItemId)
  | link (item x : ItemId)
  | unlink (item x : ItemId)
  | delete (item : ItemId)
  deriving DecidableEq, Repr

namespace Effect

def item : Effect → ItemId
  | create a | count a | link a _ | unlink a _ | delete a => a

/-- What becomes of the listing of the item. -/
def list : Effect → Option Listing → Option Listing
  | create _, _ => some ⟨1, []⟩
  | count _, found => found.map fun l => ⟨l.slots + 1, l.aliases⟩
  | link _ x, found => found.map fun l =>
      ⟨l.slots + 1, if x ∈ l.aliases then l.aliases else l.aliases ++ [x]⟩
  | unlink _ x, found => found.map fun l => ⟨l.slots + 1, l.aliases.filter fun y => y ≠ x⟩
  | delete _, _ => none

/-- What becomes of the pointer of `x`, if the item has the aliases `xs`. -/
def point (f : Effect) (xs : List ItemId) (x : ItemId) (old : Option ItemId) : Option ItemId :=
  match f with
  | link a y => if x = y then some a else old
  | unlink _ y => if x = y then none else old
  | delete _ => if x ∈ xs then none else old
  | create _ | count _ => old

/-- What the event writes beside its slot can be written, if the item has the aliases `xs`. -/
def Writable (xs : List ItemId) : Effect → Prop
  | link _ x => (Key.pointer x).length ≤ Txn.keyLimit ∧
      ∃ bytes, record (if x ∈ xs then xs else xs ++ [x]) = .ok bytes
  | unlink _ x => x ∈ xs ∧ ∃ bytes, record (xs.filter fun y => y ≠ x) = .ok bytes
  | create _ | count _ | delete _ => True

/-- The event can be appended to an item with this listing. -/
def Fits (found : Option Listing) : Effect → Prop
  | create _ => found = none
  | f => ∃ l, found = some l ∧ l.slots + 1 < Bytes.capacity 8 ∧ f.Writable l.aliases

end Effect

/-- The same listing with as many slots or more. -/
inductive Listing.Le : Option Listing → Option Listing → Prop
  | none : Le none none
  | some {m n : Nat} (h : m ≤ n) (xs : List ItemId) : Le (some ⟨m, xs⟩) (some ⟨n, xs⟩)

theorem Listing.Le.aliases {found more : Option Listing} (h : Le found more) :
    (found.map Listing.aliases).getD [] = (more.map Listing.aliases).getD [] := by
  cases h with
  | none => rfl
  | some => rfl

namespace Effect

variable {f : Effect} {found more : Option Listing} {x : ItemId}

theorem list_le (h : Listing.Le found more) : Listing.Le (f.list found) (f.list more) := by
  cases h with
  | none => cases f <;> first | exact .none | exact .some le_rfl _
  | some h xs =>
    cases f with
    | create a => exact .some le_rfl _
    | delete a => exact .none
    | count a | link a x | unlink a x => exact .some (Nat.succ_le_succ h) _

theorem le_count (h : Listing.Le found more) (a : ItemId) :
    Listing.Le found ((count a).list more) := by
  cases h with
  | none => exact .none
  | some h xs => exact .some (Nat.le_succ_of_le h) _

theorem Fits.of_le (h : f.Fits more) (hle : Listing.Le found more) : f.Fits found := by
  cases hle with
  | none => exact h
  | some hle xs =>
    cases f with
    | create a => cases h
    | count a | delete a | link a x | unlink a x =>
      obtain ⟨l, hl, hslots, hrest⟩ := h
      cases hl
      exact ⟨_, rfl, lt_of_le_of_lt (Nat.succ_le_succ hle) hslots, hrest⟩

/-- Only a link adds an alias. -/
theorem mem_of_mem_list (h : x ∈ ((f.list found).map Listing.aliases).getD []) :
    f = link f.item x ∨ x ∈ (found.map Listing.aliases).getD [] := by
  cases found with
  | none => cases f <;> cases h
  | some l =>
    cases f with
    | create a | delete a => cases h
    | count a => exact .inr h
    | unlink a y => exact .inr (List.mem_of_mem_filter h)
    | link a y =>
      simp only [list, Option.map_some, Option.getD_some] at h
      split_ifs at h
      · exact .inr h
      · rcases List.mem_append.mp h with h | h
        · exact .inr h
        · rw [List.mem_singleton.mp h]
          exact .inl rfl

end Effect

/-! ## Effects in a directory -/

namespace Directory

/-- What an event does before it takes its slot. -/
def begin (d : Directory) : Effect → Directory
  | .create a => d.start a
  | .count _ | .link _ _ | .unlink _ _ | .delete _ => d

/-- What an event does after it has taken its slot. -/
def finish (d : Directory) : Effect → Directory
  | .create _ | .count _ => d
  | .link a x => d.link a x
  | .unlink a x => d.unlink a x
  | .delete a => d.drop a

def take (d : Directory) (f : Effect) : Directory := ((d.begin f).count f.item).finish f

/-- The directory that the events make, one after the other. -/
def replay (fs : List Effect) : Directory := fs.foldl take empty

theorem replay_snoc (fs : List Effect) (f : Effect) : replay (fs ++ [f]) = (replay fs).take f := by
  rw [replay, List.foldl_append]
  rfl

variable {d : Directory} {f : Effect} {a b x : ItemId}

theorem listings_take_self : (d.take f).listings f.item = f.list (d.listings f.item) := by
  cases f with
  | create a =>
    have hself : (d.start a).listings a = some ⟨0, []⟩ := Function.update_self _ _ _
    exact listings_modify_self.trans (congrArg _ hself)
  | count a => exact listings_modify_self
  | delete a => exact Function.update_self _ _ _
  | link a x =>
    show ((d.count a).modify a _).listings a = _
    rw [listings_modify_self, count, listings_modify_self, Option.map_map]
    rfl
  | unlink a x =>
    show ((d.count a).modify a _).listings a = _
    rw [listings_modify_self, count, listings_modify_self, Option.map_map]
    rfl

theorem listings_take_of_ne (h : a ≠ f.item) : (d.take f).listings a = d.listings a := by
  cases f with
  | create b => exact (listings_modify_of_ne h).trans (Function.update_of_ne h _ _)
  | count b => exact listings_modify_of_ne h
  | delete b => exact (Function.update_of_ne h _ _).trans (listings_modify_of_ne h)
  | link b x => exact (listings_modify_of_ne h).trans (listings_modify_of_ne h)
  | unlink b x => exact (listings_modify_of_ne h).trans (listings_modify_of_ne h)

theorem pointers_take : (d.take f).pointers x = f.point (d.aliases f.item) x (d.pointers x) := by
  cases f with
  | create a | count a => rfl
  | link a y => exact pointers_link
  | unlink a y => exact pointers_unlink
  | delete a =>
    refine pointers_drop.trans ?_
    rw [aliases_count]
    rfl

/-- The event can be appended to its item. -/
structure Admits (d : Directory) (f : Effect) : Prop where
  length : f.item.name.length + 12 ≤ Txn.keyLimit
  fits : f.Fits (d.listings f.item)

/-- What the item has when the event takes its slot. -/
theorem Admits.begin (h : d.Admits f) : ∃ l, (d.begin f).listings f.item = some l ∧
    l.slots + 1 < Bytes.capacity 8 ∧ f.Writable l.aliases := by
  have hfits := h.fits
  cases f with
  | create a => exact ⟨⟨0, []⟩, Function.update_self _ _ _, by decide, trivial⟩
  | count a | link a x | unlink a x | delete a => exact hfits

/-- The same items, aliases and pointers, with as many slots or fewer. -/
structure Le (less more : Directory) : Prop where
  listings : ∀ a, Listing.Le (less.listings a) (more.listings a)
  pointers : ∀ x, less.pointers x = more.pointers x

namespace Le

variable {less more : Directory}

theorem empty : Le .empty .empty := ⟨fun _ => .none, fun _ => rfl⟩

theorem aliases (h : less.Le more) (a : ItemId) : less.aliases a = more.aliases a :=
  (h.listings a).aliases

theorem admits (h : less.Le more) (hf : more.Admits f) : less.Admits f :=
  ⟨hf.length, hf.fits.of_le (h.listings _)⟩

theorem take (h : less.Le more) : (less.take f).Le (more.take f) := by
  constructor
  · intro a
    by_cases ha : a = f.item
    · subst ha
      rw [listings_take_self, listings_take_self]
      exact Effect.list_le (h.listings _)
    · rw [listings_take_of_ne ha, listings_take_of_ne ha]
      exact h.listings a
  · intro x
    rw [pointers_take, pointers_take, h.aliases, h.pointers]

theorem count (h : less.Le more) : less.Le (more.take (.count a)) := by
  constructor
  · intro b
    by_cases hb : b = a
    · subst hb
      exact listings_take_self (d := more) (f := .count b) ▸ Effect.le_count (h.listings b) b
    · rw [listings_take_of_ne hb]
      exact h.listings b
  · exact h.pointers

end Le

theorem PointsBack.take (h : d.PointsBack) (hfits : f.Fits (d.listings f.item)) :
    (d.take f).PointsBack := by
  have hthere : ∀ {l}, d.listings f.item = some l → (d.count f.item).listings f.item ≠ none := by
    intro l hl
    rw [Directory.count, listings_modify_self, hl]
    exact Option.some_ne_none _
  cases f with
  | create a => exact (h.start hfits).count
  | count a => exact h.count
  | delete a => exact h.count.drop
  | link a y =>
    obtain ⟨l, hl, -⟩ := hfits
    exact h.count.link (hthere hl)
  | unlink a y => exact h.count.unlink

end Directory

/-! ## Partitions -/

namespace Effect

/-- The events of items with the type tag. -/
def ofTag (tag : UInt16) (fs : List Effect) : List Effect := fs.filter fun f => f.item.tag = tag

variable {fs gs : List Effect} {f : Effect} {tag : UInt16} {a b x : ItemId} {d : Directory}

theorem ofTag_snoc : ofTag tag (fs ++ [f]) =
    if f.item.tag = tag then ofTag tag fs ++ [f] else ofTag tag fs := by
  rw [ofTag, List.filter_append]
  split_ifs with h
  · rw [List.filter_cons_of_pos (by simpa using h)]
    rfl
  · rw [List.filter_cons_of_neg (by simpa using h), List.filter_nil, List.append_nil, ofTag]

theorem mem_ofTag_self : f ∈ ofTag f.item.tag fs ↔ f ∈ fs := by
  simp [ofTag]

theorem ofTag_append : ofTag tag (fs ++ gs) = ofTag tag fs ++ ofTag tag gs :=
  List.filter_append fs gs

theorem ofTag_eq_self (h : ∀ f ∈ fs, f.item.tag = tag) : ofTag tag fs = fs :=
  List.filter_eq_self.mpr fun f hf => decide_eq_true (h f hf)

theorem ofTag_eq_nil (h : ∀ f ∈ fs, f.item.tag ≠ tag) : ofTag tag fs = [] :=
  List.filter_eq_nil_iff.mpr fun f hf heq => h f hf (of_decide_eq_true heq)

/-- Every event can be appended after those before it. -/
def Proper (fs : List Effect) : Prop :=
  ∀ before f after, fs = before ++ f :: after → (Directory.replay before).Admits f

theorem proper_nil : Proper [] := by
  intro before f after h
  simp at h

theorem proper_snoc : Proper (fs ++ [f]) ↔ Proper fs ∧ (Directory.replay fs).Admits f := by
  constructor
  · intro h
    refine ⟨fun before g after hsplit => ?_, h fs f [] rfl⟩
    refine h before g (after ++ [f]) ?_
    rw [hsplit, List.append_assoc, List.cons_append]
  · rintro ⟨hfs, hf⟩ before g after hsplit
    rcases List.eq_nil_or_concat after with rfl | ⟨rest, last, rfl⟩
    · obtain ⟨rfl, heq⟩ := List.append_inj' hsplit rfl
      cases heq
      exact hf
    · rw [List.concat_eq_append, ← List.cons_append, ← List.append_assoc] at hsplit
      obtain ⟨rfl, -⟩ := List.append_inj' hsplit rfl
      exact hfs before g rest rfl

theorem Proper.of_append (h : Proper (fs ++ gs)) : Proper fs := by
  intro before f after hsplit
  refine h before f (after ++ gs) ?_
  rw [hsplit, List.append_assoc, List.cons_append]

/-- What an item has depends on the events of its partition. -/
theorem listings_replay_ofTag (fs : List Effect) (h : a.tag = tag) :
    (Directory.replay (ofTag tag fs)).listings a = (Directory.replay fs).listings a := by
  induction fs using List.reverseRecOn with
  | nil => rfl
  | append_singleton fs f ih =>
    rw [ofTag_snoc, Directory.replay_snoc]
    by_cases ha : a = f.item
    · subst ha
      rw [if_pos h, Directory.replay_snoc, Directory.listings_take_self,
        Directory.listings_take_self, ih]
    · rw [Directory.listings_take_of_ne ha]
      split_ifs
      · rw [Directory.replay_snoc, Directory.listings_take_of_ne ha, ih]
      · exact ih

theorem aliases_replay_ofTag (fs : List Effect) (h : a.tag = tag) :
    (Directory.replay (ofTag tag fs)).aliases a = (Directory.replay fs).aliases a :=
  Directory.aliases_congr (listings_replay_ofTag fs h)

theorem admits_ofTag : (Directory.replay (ofTag f.item.tag fs)).Admits f ↔
    (Directory.replay fs).Admits f := by
  have hlisting := listings_replay_ofTag fs (a := f.item) rfl
  constructor
  · rintro ⟨hlength, hfits⟩
    exact ⟨hlength, hlisting ▸ hfits⟩
  · rintro ⟨hlength, hfits⟩
    exact ⟨hlength, hlisting ▸ hfits⟩

/-- The partitions may be merged in any order. -/
theorem proper_iff_ofTag : Proper fs ↔ ∀ tag, Proper (ofTag tag fs) := by
  induction fs using List.reverseRecOn with
  | nil => exact ⟨fun h _ => h, fun h => h 0⟩
  | append_singleton fs f ih =>
    rw [proper_snoc, ih]
    constructor
    · rintro ⟨hfs, hf⟩ tag
      rw [ofTag_snoc]
      split_ifs with htag
      · subst htag
        exact proper_snoc.mpr ⟨hfs _, admits_ofTag.mpr hf⟩
      · exact hfs tag
    · intro h
      have hself := h f.item.tag
      rw [ofTag_snoc, if_pos rfl, proper_snoc] at hself
      refine ⟨fun tag => ?_, admits_ofTag.mp hself.2⟩
      have htag := h tag
      rw [ofTag_snoc] at htag
      split_ifs at htag
      · exact (proper_snoc.mp htag).1
      · exact htag

theorem Proper.pointsBack (h : Proper fs) : (Directory.replay fs).PointsBack := by
  induction fs using List.reverseRecOn with
  | nil => exact .empty
  | append_singleton fs f ih =>
    obtain ⟨hfs, hf⟩ := proper_snoc.mp h
    rw [Directory.replay_snoc]
    exact (ih hfs).take hf.fits

/-- An alias that an item lists after an event has been given to it by the event, or was there and the
event neither creates the item nor deletes it. -/
theorem mem_aliases_take (h : x ∈ (d.take f).aliases a) :
    f = link a x ∨ x ∈ d.aliases a ∧ f ≠ create a ∧ f ≠ delete a := by
  by_cases ha : a = f.item
  · subst ha
    rw [Directory.aliases, Directory.listings_take_self] at h
    rcases mem_of_mem_list h with hf | hold
    · exact .inl hf
    · refine .inr ⟨hold, ?_, ?_⟩
      · intro heq
        rw [heq] at h
        cases h
      · intro heq
        rw [heq] at h
        cases h
  · rw [Directory.aliases_congr (Directory.listings_take_of_ne ha)] at h
    refine .inr ⟨h, ?_, ?_⟩
    · rintro rfl
      exact ha rfl
    · rintro rfl
      exact ha rfl

/-- An alias that an item lists has been given to it, or it was there from the start and the item has
been neither created nor deleted. -/
theorem mem_aliases_foldl (h : x ∈ (fs.foldl Directory.take d).aliases a) :
    link a x ∈ fs ∨ x ∈ d.aliases a ∧ create a ∉ fs ∧ delete a ∉ fs := by
  induction fs generalizing d with
  | nil => exact .inr ⟨h, List.not_mem_nil, List.not_mem_nil⟩
  | cons f fs ih =>
    rcases ih h with hlink | ⟨hx, hcreate, hdelete⟩
    · exact .inl (List.mem_cons_of_mem f hlink)
    · rcases mem_aliases_take hx with rfl | ⟨hx, hf_create, hf_delete⟩
      · exact .inl List.mem_cons_self
      · exact .inr ⟨hx, by simp [hcreate, hf_create.symm], by simp [hdelete, hf_delete.symm]⟩

/-- An item has been given the aliases that it lists. -/
theorem link_mem_of_mem_aliases (h : x ∈ (Directory.replay fs).aliases a) : link a x ∈ fs := by
  rcases mem_aliases_foldl h with hlink | ⟨hnil, -⟩
  · exact hlink
  · cases hnil

/-! ## Aliases of one partition -/

/-- Only items with the type tag are given the alias. -/
def Confined (x : ItemId) (tag : UInt16) (fs : List Effect) : Prop :=
  ∀ a, link a x ∈ fs → a.tag = tag

/-- An event touches the pointers that it adds and those of aliases that its item has. -/
theorem point_eq_of_confined (hx : Confined x tag (fs ++ [f])) (hf : f.item.tag ≠ tag)
    (hfits : f.Fits ((Directory.replay fs).listings f.item)) (old : Option ItemId) :
    f.point ((Directory.replay fs).aliases f.item) x old = old := by
  have hnot : ∀ {a}, x ∈ (Directory.replay fs).aliases a → a.tag = tag := fun h =>
    hx _ (List.mem_append_left _ (link_mem_of_mem_aliases h))
  cases f with
  | create a | count a => rfl
  | link a y =>
    refine if_neg ?_
    rintro rfl
    exact hf (hx a (by simp))
  | unlink a y =>
    refine if_neg ?_
    rintro rfl
    obtain ⟨l, hl, -, hmem, -⟩ := hfits
    exact hf (hnot (by rwa [Directory.aliases_of_listing hl]))
  | delete a => exact if_neg fun hmem => hf (hnot hmem)

/-- The pointer of an alias that one partition alone uses depends on the events of that
partition. -/
theorem pointers_replay_ofTag (h : Proper fs) (hx : Confined x tag fs) :
    (Directory.replay (ofTag tag fs)).pointers x = (Directory.replay fs).pointers x := by
  induction fs using List.reverseRecOn with
  | nil => rfl
  | append_singleton fs f ih =>
    obtain ⟨hfs, hf⟩ := proper_snoc.mp h
    have ih := ih hfs fun a ha => hx a (List.mem_append_left _ ha)
    rw [ofTag_snoc, Directory.replay_snoc, Directory.pointers_take]
    split_ifs with htag
    · rw [Directory.replay_snoc, Directory.pointers_take, aliases_replay_ofTag fs htag, ih]
    · rw [point_eq_of_confined hx htag hf.fits, ih]

/-! ## Merging partitions -/

theorem mem_iff_of_ofTag (h : ∀ tag, ofTag tag fs = ofTag tag gs) : f ∈ fs ↔ f ∈ gs := by
  rw [← mem_ofTag_self, h, mem_ofTag_self]

/-- Where no alias in use has been used by another partition, any merge of the partitions leads to a
directory that is consistent, as long as one merge does. -/
theorem pointers_iff_of_confined (hfs : Proper fs) (h : ∀ tag, ofTag tag gs = ofTag tag fs)
    (hpoints : ∀ x a, x ∈ (Directory.replay fs).aliases a → (Directory.replay fs).pointers x = some a)
    (hconfined : ∀ x a, x ∈ (Directory.replay fs).aliases a → Confined x a.tag fs) (x a : ItemId) :
    (Directory.replay gs).pointers x = some a ↔ x ∈ (Directory.replay gs).aliases a := by
  have hgs : Proper gs := proper_iff_ofTag.mpr fun tag => h tag ▸ proper_iff_ofTag.mp hfs tag
  constructor
  · exact hgs.pointsBack x a
  · intro hx
    rw [← aliases_replay_ofTag gs rfl, h, aliases_replay_ofTag fs rfl] at hx
    have hconfined_gs : Confined x a.tag gs := fun b hb =>
      hconfined x a hx b ((mem_iff_of_ofTag h).mp hb)
    rw [← pointers_replay_ofTag hgs hconfined_gs, h, pointers_replay_ofTag hfs (hconfined x a hx)]
    exact hpoints x a hx

theorem point_ne {xs : List ItemId} {old : Option ItemId} (hold : old ≠ some a)
    (hf : f.item ≠ a) : f.point xs x old ≠ some a := by
  have hitem : some f.item ≠ some a := fun heq => hf (Option.some.inj heq)
  cases f with
  | create b | count b => exact hold
  | link b y =>
    rw [point]
    split_ifs
    · exact hitem
    · exact hold
  | unlink b y | delete b =>
    rw [point]
    split_ifs
    · nofun
    · exact hold

/-- Once other partitions have used an alias, its pointer leads to no item of this one. -/
theorem pointers_ne_of_link (hgs : ∀ f ∈ gs, f.item.tag ≠ a.tag) (hlink : link b x ∈ gs)
    (d : Directory) : (gs.foldl Directory.take d).pointers x ≠ some a := by
  induction gs using List.reverseRecOn with
  | nil => cases hlink
  | append_singleton gs f ih =>
    have hf : f.item ≠ a := fun heq => hgs f (by simp) (by rw [heq])
    rw [List.foldl_append, List.foldl_cons, List.foldl_nil, Directory.pointers_take]
    rcases List.mem_append.mp hlink with hmem | hlast
    · exact point_ne (ih (fun g hg => hgs g (List.mem_append_left _ hg)) hmem) hf
    · rw [← List.mem_singleton.mp hlast] at hf ⊢
      rw [point, if_pos rfl]
      exact fun heq => hf (Option.some.inj heq)

end Effect
end Chronicle
