import Mathlib
import Chronicle.Id

/-!
# Directories

What a store knows of items and their aliases, apart from how it keeps it: for each item the number
of its slots and the list of its aliases, and for each alias the item that it points at. The two
are kept by operations of their own. A directory is consistent if they agree, and each operation
preserves that, provided that a new alias is free and that an alias is removed from the item that it
points at.
-/
namespace Chronicle

/-- An item that exists. -/
structure Listing where
  slots : Nat
  aliases : List ItemId
  deriving DecidableEq, Repr

structure Directory where
  listings : ItemId → Option Listing
  pointers : ItemId → Option ItemId

namespace Directory

def empty : Directory := ⟨fun _ => none, fun _ => none⟩

/-- The aliases that an item lists; none if it does not exist. -/
def aliases (d : Directory) (item : ItemId) : List ItemId :=
  ((d.listings item).map Listing.aliases).getD []

def modify (d : Directory) (item : ItemId) (f : Listing → Listing) : Directory :=
  { d with listings := Function.update d.listings item ((d.listings item).map f) }

/-- The item has come into being. -/
def start (d : Directory) (item : ItemId) : Directory :=
  { d with listings := Function.update d.listings item (some ⟨0, []⟩) }

/-- The item has got a slot. -/
def count (d : Directory) (item : ItemId) : Directory :=
  d.modify item fun listing => { listing with slots := listing.slots + 1 }

def link (d : Directory) (item x : ItemId) : Directory :=
  { d.modify item fun listing => { listing with
      aliases := if x ∈ listing.aliases then listing.aliases else listing.aliases ++ [x] }
    with pointers := Function.update d.pointers x (some item) }

def unlink (d : Directory) (item x : ItemId) : Directory :=
  { d.modify item fun listing => { listing with
      aliases := listing.aliases.filter fun other => other ≠ x }
    with pointers := Function.update d.pointers x none }

/-- The item is gone, and the pointers of its aliases with it. -/
def drop (d : Directory) (item : ItemId) : Directory :=
  ⟨Function.update d.listings item none,
    fun x => if x ∈ d.aliases item then none else d.pointers x⟩

variable {d : Directory} {item other x y : ItemId}

/-! ## Listings -/

theorem listings_modify_of_ne {f : Listing → Listing} (h : other ≠ item) :
    (d.modify item f).listings other = d.listings other := Function.update_of_ne h _ _

theorem listings_modify_self {f : Listing → Listing} :
    (d.modify item f).listings item = (d.listings item).map f := Function.update_self _ _ _

theorem aliases_of_listing {listing : Listing} (h : d.listings item = some listing) :
    d.aliases item = listing.aliases := by
  simp [aliases, h]

theorem aliases_of_none (h : d.listings item = none) : d.aliases item = [] := by
  simp [aliases, h]

theorem aliases_congr {other : Directory} (h : d.listings item = other.listings item) :
    d.aliases item = other.aliases item := by
  simp [aliases, h]

@[simp] theorem aliases_empty : empty.aliases item = [] := rfl

@[simp] theorem pointers_empty : empty.pointers x = none := rfl

theorem aliases_start : (d.start item).aliases other = if other = item then [] else d.aliases other := by
  split_ifs with h
  · subst h
    simp [aliases, start]
  · exact aliases_congr (Function.update_of_ne h _ _)

@[simp] theorem aliases_count : (d.count item).aliases other = d.aliases other := by
  by_cases h : other = item
  · subst h
    rw [aliases, count, listings_modify_self, Option.map_map]
    rfl
  · exact aliases_congr (listings_modify_of_ne h)

theorem aliases_link (h : d.listings item ≠ none) : (d.link item x).aliases other =
    if other = item then (if x ∈ d.aliases item then d.aliases item else d.aliases item ++ [x])
    else d.aliases other := by
  obtain ⟨listing, hlisting⟩ := Option.ne_none_iff_exists'.mp h
  by_cases hother : other = item
  · subst hother
    rw [if_pos rfl, aliases_of_listing hlisting]
    simp [aliases, link, modify, hlisting]
  · rw [if_neg hother]
    exact aliases_congr (listings_modify_of_ne hother)

theorem aliases_unlink : (d.unlink item x).aliases other =
    if other = item then (d.aliases item).filter fun y => y ≠ x else d.aliases other := by
  split_ifs with hother
  · subst hother
    cases h : d.listings other <;> simp [aliases, unlink, modify, h]
  · exact aliases_congr (listings_modify_of_ne hother)

theorem aliases_drop : (d.drop item).aliases other = if other = item then [] else d.aliases other := by
  split_ifs with h
  · subst h
    simp [aliases, drop]
  · exact aliases_congr (Function.update_of_ne h _ _)

/-! ## Pointers -/

@[simp] theorem pointers_start : (d.start item).pointers = d.pointers := rfl

@[simp] theorem pointers_count : (d.count item).pointers = d.pointers := rfl

theorem pointers_link : (d.link item x).pointers y = if y = x then some item else d.pointers y :=
  Function.update_apply _ _ _ _

theorem pointers_unlink : (d.unlink item x).pointers y = if y = x then none else d.pointers y :=
  Function.update_apply _ _ _ _

theorem pointers_drop : (d.drop item).pointers x = if x ∈ d.aliases item then none else d.pointers x :=
  rfl

/-! ## Pointers lead to lists -/

/-- What an alias points at lists it. -/
def PointsBack (d : Directory) : Prop := ∀ x item, d.pointers x = some item → x ∈ d.aliases item

namespace PointsBack

theorem empty : PointsBack .empty := by
  intro x item h
  simp at h

theorem start (h : d.PointsBack) (hnone : d.listings item = none) : (d.start item).PointsBack := by
  intro x other hx
  have hold := h x other hx
  rw [aliases_start]
  split_ifs with heq
  · rw [heq, aliases_of_none hnone] at hold
    exact hold
  · exact hold

theorem count (h : d.PointsBack) : (d.count item).PointsBack := by
  intro x other hx
  rw [aliases_count]
  exact h x other hx

theorem link (h : d.PointsBack) (hthere : d.listings item ≠ none) : (d.link item x).PointsBack := by
  intro y other hy
  rw [aliases_link hthere]
  by_cases hyx : y = x
  · have hitem : other = item := by simpa [pointers_link, hyx] using hy.symm
    rw [if_pos hitem, hyx]
    split_ifs with hmem
    · exact hmem
    · simp
  · have hold := h y other (by simpa [pointers_link, hyx] using hy)
    split_ifs with heq hmem
    · exact heq ▸ hold
    · exact List.mem_append_left _ (heq ▸ hold)
    · exact hold

theorem unlink (h : d.PointsBack) : (d.unlink item x).PointsBack := by
  intro y other hy
  have hyx : y ≠ x := by
    rintro rfl
    simp [pointers_unlink] at hy
  have hold := h y other (by simpa [pointers_unlink, hyx] using hy)
  rw [aliases_unlink]
  split_ifs with heq
  · exact List.mem_filter.mpr ⟨heq ▸ hold, by simpa using hyx⟩
  · exact hold

theorem drop (h : d.PointsBack) : (d.drop item).PointsBack := by
  intro x other hx
  rw [pointers_drop] at hx
  split_ifs at hx with hmem
  have hold := h x other hx
  rw [aliases_drop]
  split_ifs with heq
  · exact absurd (heq ▸ hold) hmem
  · exact hold

end PointsBack

/-! ## Consistency -/

/-- Aliases point at the items that list them, and no item lists one twice. -/
structure Consistent (d : Directory) : Prop where
  points : d.PointsBack
  listed : ∀ item, ∀ x ∈ d.aliases item, d.pointers x = some item
  nodup : ∀ item, (d.aliases item).Nodup

namespace Consistent

theorem pointers_iff (h : d.Consistent) : d.pointers x = some item ↔ x ∈ d.aliases item :=
  ⟨h.points x item, h.listed item x⟩

theorem empty : Consistent .empty := by
  refine ⟨.empty, ?_, ?_⟩
  · intro item x hx
    simp at hx
  · intro item
    simp

theorem start (h : d.Consistent) (hnone : d.listings item = none) : (d.start item).Consistent := by
  refine ⟨h.points.start hnone, ?_, ?_⟩
  · intro other x hx
    rw [aliases_start] at hx
    split_ifs at hx
    · cases hx
    · exact h.listed other x hx
  · intro other
    rw [aliases_start]
    split_ifs
    · exact List.nodup_nil
    · exact h.nodup other

theorem count (h : d.Consistent) : (d.count item).Consistent := by
  refine ⟨h.points.count, ?_, ?_⟩
  · intro other x hx
    rw [aliases_count] at hx
    exact h.listed other x hx
  · intro other
    rw [aliases_count]
    exact h.nodup other

theorem link (h : d.Consistent) (hthere : d.listings item ≠ none) (hfree : d.pointers x = none) :
    (d.link item x).Consistent := by
  have hnot : ∀ other, x ∉ d.aliases other := by
    intro other hx
    rw [h.listed other x hx] at hfree
    cases hfree
  refine ⟨h.points.link hthere, ?_, ?_⟩
  · intro other y hy
    rw [aliases_link hthere, if_neg (hnot item)] at hy
    have hpointer : y ≠ x → (d.link item x).pointers y = d.pointers y := fun hne => by
      rw [pointers_link, if_neg hne]
    split_ifs at hy with heq
    · rcases List.mem_append.mp hy with hold | hnew
      · have hne : y ≠ x := fun hyx => hnot item (hyx ▸ hold)
        rw [hpointer hne, heq]
        exact h.listed item y hold
      · rw [List.mem_singleton.mp hnew, heq, pointers_link, if_pos rfl]
    · have hne : y ≠ x := fun hyx => hnot other (hyx ▸ hy)
      rw [hpointer hne]
      exact h.listed other y hy
  · intro other
    rw [aliases_link hthere, if_neg (hnot item)]
    split_ifs
    · exact List.nodup_append.mpr ⟨h.nodup item, List.nodup_singleton x, by
        intro y hy z hz
        rw [List.mem_singleton.mp hz]
        exact fun hyx => hnot item (hyx ▸ hy)⟩
    · exact h.nodup other

theorem unlink (h : d.Consistent) (hpoints : d.pointers x = some item) :
    (d.unlink item x).Consistent := by
  refine ⟨h.points.unlink, ?_, ?_⟩
  · intro other y hy
    rw [aliases_unlink] at hy
    have hold : y ∈ d.aliases other ∧ y ≠ x := by
      split_ifs at hy with heq
      · rw [heq]
        simpa using hy
      · refine ⟨hy, ?_⟩
        rintro rfl
        rw [h.listed other y hy, Option.some.injEq] at hpoints
        exact heq hpoints
    rw [pointers_unlink, if_neg hold.2]
    exact h.listed other y hold.1
  · intro other
    rw [aliases_unlink]
    split_ifs
    · exact (h.nodup item).filter _
    · exact h.nodup other

theorem drop (h : d.Consistent) : (d.drop item).Consistent := by
  refine ⟨h.points.drop, ?_, ?_⟩
  · intro other x hx
    rw [aliases_drop] at hx
    split_ifs at hx with heq
    · cases hx
    · have hpoints := h.listed other x hx
      have hnot : x ∉ d.aliases item := by
        intro hmem
        rw [h.listed item x hmem, Option.some.injEq] at hpoints
        exact heq hpoints.symm
      rw [pointers_drop, if_neg hnot]
      exact hpoints
  · intro other
    rw [aliases_drop]
    split_ifs
    · exact List.nodup_nil
    · exact h.nodup other

end Consistent

end Directory
end Chronicle
