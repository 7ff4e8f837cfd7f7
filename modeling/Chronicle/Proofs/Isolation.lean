import Mathlib
import Chronicle.Proofs.SlotPointers
import Chronicle.Proofs.Slots

/-!
# Isolation of items

An operation on one item leaves every read of another item as it was, in every reachable store,
as long as neither name continues the other in a way that makes their keys meet. Where it does,
isolation fails: a view of one item can bring the other into being.
-/
namespace Chronicle

/-- Two key spaces cannot be told apart by reading an item. -/
structure Item.SameReads (item : ItemId) (a b : KeySpace) : Prop where
  isThere : isThere a item = isThere b item
  version : version a item = version b item
  load : ∀ first last, load a item first last = load b item first last
  aliases : aliases a item = aliases b item
  viewNames : viewNames a item = viewNames b item
  checkpoint : ∀ name, checkpoint? a item name = checkpoint? b item name

namespace Item

variable {a b : KeySpace} {item : ItemId}

theorem foldSlots_congr {σ : Type} {visit : σ → Nat → Event → Outcome (Visit σ)}
    (h : ∀ slot, slotEvent a item slot = slotEvent b item slot) (count slot : Nat) (state : σ) :
    foldSlots a item visit count slot state = foldSlots b item visit count slot state := by
  induction count generalizing slot state with
  | zero => rfl
  | succ count ih => simp only [foldSlots, h, ih]

theorem sameReads_of_agree (hsub : ∀ k, a.stored? (Key.sub item k) = b.stored? (Key.sub item k))
    (hslot : ∀ slot, slotEvent a item slot = slotEvent b item slot) : SameReads item a b := by
  have hversion : version a item = version b item := version_congr (hsub .version)
  refine ⟨KeySpace.contains_congr (hsub .version), hversion, fun first last => ?_, ?_, ?_, ?_⟩
  · simp only [load, hversion, foldSlots_congr hslot]
  · have hlist : aliasList a item = aliasList b item := listAt_congr (hsub .aliases)
    rw [aliases, aliases, hversion, hlist]
  · have hlist : viewList a item = viewList b item := listAt_congr (hsub (.view []))
    rw [viewNames, viewNames, hversion, hlist]
  · intro name
    have hget : a.get (Key.view item name) = b.get (Key.view item name) :=
      KeySpace.get_congr (hsub (.view name))
    rw [checkpoint?, checkpoint?, hversion, hget]

end Item

/-- A slot reads the same as long as the index and the entries of the log stay. -/
theorem Sound.slotEvent_congr {F : Bytes → Prop} {s t : Session} {item : ItemId}
    (hsound : Sound s.keys) (hwithin : s.Within F t)
    (hsub : ∀ k, t.keys.stored? (Key.sub item k) = s.keys.stored? (Key.sub item k)) (slot : Nat) :
    Item.slotEvent s.keys item slot = Item.slotEvent t.keys item slot := by
  have hget : t.keys.get (Key.slot item (UInt64.ofNat slot)) =
      s.keys.get (Key.slot item (UInt64.ofNat slot)) := KeySpace.get_congr (hsub (.slot _))
  unfold Item.slotEvent
  rw [hget]
  rcases hentry : s.keys.get (Key.slot item (UInt64.ofNat slot)) with fault | ⟨_ | entry⟩
  · rfl
  · rfl
  · rcases hid : EventId.decode entry.value with fault | id
    · simp [bind, Except.bind, hid]
    · -- the slot names a log entry, which is there and stays as it is
      have hstored := KeySpace.stored?_of_get hentry
      rw [Entry.stored, EventId.decode_eq_ok_iff.mp hid] at hstored
      obtain ⟨logged, hlogged⟩ := Option.ne_none_iff_exists'.mp
        (hsound _ _ _ (Key.head?_sub item (.slot _)) hstored)
      have hlog : Log.get s.keys id = Log.get t.keys id := by
        unfold Log.get
        rw [KeySpace.get_congr (hlogged.trans (hwithin.log hlogged).symm)]
      simp only [bind, Except.bind, hid, hlog]

/-- In no reachable store does an operation on the first item change a read of the second. -/
def Item.Isolated (a b : ItemId) : Prop :=
  ∀ {s t : Session} {op : Op} {reply : Reply}, Reachable s.keys → op.item? = some a →
    op.run s = .ok reply t → SameReads b s.keys t.keys

theorem Item.isolated_of_apart {a b : ItemId} (h : a.Apart b) : Isolated a b := by
  intro s t op reply hreach hop hrun
  have hwithin := (Txn.Keeps.writes_of_ok op.writes hrun).within
  have hsub : ∀ k, t.keys.stored? (Key.sub b k) = s.keys.stored? (Key.sub b k) := by
    refine fun k => hwithin.frame (Op.not_touches_sub (fun item hitem => ?_) k)
    rw [hop, Option.some.injEq] at hitem
    exact hitem ▸ h
  exact sameReads_of_agree (fun k => (hsub k).symm)
    ((sound_of_reachable hreach).slotEvent_congr hwithin hsub)

/-- An operation on one item changes no read of another item whose keys cannot meet its own. -/
theorem items_isolated {s t : Session} {a b : ItemId} {op : Op} {reply : Reply}
    (hreach : Reachable s.keys) (hne : a ≠ b) (hab : ¬ a.Shadows b) (hba : ¬ b.Shadows a)
    (hop : op.item? = some a) (hrun : op.run s = .ok reply t) :
    Item.SameReads b s.keys t.keys := by
  have hapart : a.Apart b := (ItemId.apart_iff hne).mpr ⟨hba, hab⟩
  exact Item.isolated_of_apart hapart hreach hop hrun

/-- A view that looks at nothing. -/
def View.idle : View Unit := ⟨fun _ _ => .ok (.next ()), fun _ => .ok [], fun _ => .ok ()⟩

namespace Isolation

def x : ItemId := ⟨1, Utf8.encode "x"⟩

def y : ItemId := ⟨1, Utf8.encode "y"⟩

def z : ItemId := ⟨1, Utf8.encode "z"⟩

/-- The name goes on where that of `x` ends, with the mark of a view. -/
def xsy : ItemId := ⟨1, Utf8.encode "xsy"⟩

def withX : Session := (Op.create x).run.leaves (.start (.steady 5 1))

theorem reachable_withX : Reachable withX.keys := .run (s := .start (.steady 5 1)) .empty (.create x)

/-- What the other item gets: an event of the domain, an alias and a view. -/
def ofY : List Op :=
  [.create y, .put y (.entity [1] [2]), .addAlias y z, .sync y [115] View.idle ()]

/-- A store with both items. -/
def withBoth : Session := ofY.foldl (fun s op => op.run.leaves s) withX

theorem reachable_foldl (ops : List Op) {s : Session} (h : Reachable s.keys) :
    Reachable (ops.foldl (fun s op => op.run.leaves s) s).keys := by
  induction ops generalizing s with
  | nil => exact h
  | cons op ops ih => exact ih (h.run op)

/-- The first item is deleted, and the other one is read with all that it has. -/
theorem items_isolated_y : ∃ t, (Op.delete x).run withBoth = .ok .done t ∧
    Item.isThere t.keys x = .ok false ∧ Item.SameReads y withBoth.keys t.keys ∧
    Item.version t.keys y = .ok 3 ∧ Item.aliases t.keys y = .ok [z] ∧
    Item.viewNames t.keys y = .ok [[115]] := by
  have hrun : ∃ t, (Op.delete x).run withBoth = .ok .done t ∧ Item.isThere t.keys x = .ok false :=
    ⟨_, rfl, rfl⟩
  obtain ⟨t, hrun, hgone⟩ := hrun
  have hshadows : ∀ {a b : ItemId}, a.name.length = b.name.length → ¬ a.Shadows b := by
    rintro a b hlength ⟨-, rest, ⟨hname, -⟩ | hname⟩
    · simp [hname] at hlength
    · simp [hname] at hlength
  have hxy : ¬ x.Shadows y := hshadows rfl
  have hyx : ¬ y.Shadows x := hshadows rfl
  have hsame := items_isolated (reachable_foldl ofY reachable_withX) (by decide) hxy hyx rfl hrun
  refine ⟨t, hrun, hgone, hsame, ?_, ?_, ?_⟩
  · rw [← hsame.version]
    exact Outcome.eq_ok_of_toOption (by decide +kernel)
  · rw [← hsame.aliases]
    exact Outcome.eq_ok_of_toOption (by decide +kernel)
  · rw [← hsame.viewNames]
    exact Outcome.eq_ok_of_toOption (by decide +kernel)

/-- Where keys meet, isolation fails: a view of one item is stored where the version of the other
would stand, and brings it into being. -/
theorem not_items_isolated : ¬ ∀ {s t : Session} {a b : ItemId} {op : Op} {reply : Reply},
    Reachable s.keys → a ≠ b → op.item? = some a → op.run s = .ok reply t →
      Item.SameReads b s.keys t.keys := by
  intro h
  have hrun : ∃ t, (Op.sync x (Utf8.encode "yv") View.idle ()).run withX = .ok .done t ∧
      Item.isThere t.keys xsy = .ok true := ⟨_, rfl, rfl⟩
  obtain ⟨t, hrun, hafter⟩ := hrun
  have hbefore : Item.isThere withX.keys xsy = .ok false := rfl
  have hsame := (h reachable_withX (b := xsy) (by decide) rfl hrun).isThere
  rw [hbefore, hafter] at hsame
  cases hsame

end Isolation
end Chronicle
