import Mathlib
import Chronicle.Proofs.Replay
import Chronicle.Proofs.Slots

/-!
# Key spaces that agree on a part

A transaction that reads and writes keys of a part only runs alike in all key spaces that agree
there, and leaves the rest as it was. The takeover of an event is such a transaction, for the
part that holds the index of its item and the aliases of the item.
-/
namespace Chronicle

/-- The two have the same under every key of the part. -/
def KeySpace.Agree (P : Bytes → Prop) (a b : KeySpace) : Prop :=
  ∀ key, P key → a.stored? key = b.stored? key

namespace KeySpace.Agree

variable {P : Bytes → Prop} {a b c : KeySpace}

theorem refl (a : KeySpace) : a.Agree P a := fun _ _ => rfl

theorem symm (h : a.Agree P b) : b.Agree P a := fun key hkey => (h key hkey).symm

theorem trans (hab : a.Agree P b) (hbc : b.Agree P c) : a.Agree P c :=
  fun key hkey => (hab key hkey).trans (hbc key hkey)

theorem insert (h : a.Agree P b) (key stored : Bytes) :
    (a.insert key stored).Agree P (b.insert key stored) := by
  intro other hother
  rw [stored?_insert, stored?_insert, h other hother]

theorem erase (h : a.Agree P b) (key : Bytes) : (a.erase key).Agree P (b.erase key) := by
  intro other hother
  rw [stored?_erase, stored?_erase, h other hother]

theorem withLog (h : a.Agree P b) (events : List LogEvent) :
    (a.withLog events).Agree P (b.withLog events) := by
  induction events generalizing a b with
  | nil => exact h
  | cons e events ih => exact ih (h.insert _ _)

theorem insert_right {key : Bytes} (h : a.Agree P b) (hkey : ¬ P key) (stored : Bytes) :
    a.Agree P (b.insert key stored) := by
  intro other hother
  rw [stored?_insert_of_ne, h other hother]
  rintro rfl
  exact hkey hother

theorem get (h : a.Agree P b) {key : Bytes} (hkey : P key) : b.get key = a.get key :=
  get_congr (h key hkey).symm

end KeySpace.Agree

namespace Txn

variable {α β : Type} {P : Bytes → Prop} {s t u : Session}

/-- In every session that agrees on the part with `s`, where the transaction succeeds, it
succeeds with the same answer and the same writes to the part, and writes nothing else. -/
def Local (P : Bytes → Prop) (m : Txn α) (s : Session) : Prop :=
  ∀ a t u, m s = .ok a t → s.keys.Agree P u.keys → ∃ w, m u = .ok a w ∧
    t.keys.Agree P w.keys ∧ u.keys.Agree (fun key => ¬ P key) w.keys ∧ w.clock = u.clock

theorem local_pure (a : α) : (pure a : Txn α).Local P s := by
  intro b t u h hu
  obtain ⟨rfl, rfl⟩ := pure_eq_ok.mp h
  exact ⟨u, rfl, hu, .refl _, rfl⟩

theorem local_query {read : KeySpace → Outcome α}
    (hread : ∀ keys, s.keys.Agree P keys → read keys = read s.keys) : (query read).Local P s := by
  intro a t u h hu
  obtain ⟨ha, rfl⟩ := query_eq_ok.mp h
  exact ⟨u, query_eq_ok.mpr ⟨(hread _ hu).trans ha, rfl⟩, hu, .refl _, rfl⟩

theorem local_lift (outcome : Outcome α) : (lift outcome).Local P s := local_query fun _ _ => rfl

theorem local_refuse (fault : Fault) : (refuse fault : Txn α).Local P s :=
  fun _ _ _ h => absurd h refuse_ne_ok

theorem Local.bind {m : Txn α} {f : α → Txn β} (hm : m.Local P s)
    (hf : ∀ {a t}, m s = .ok a t → (f a).Local P t) : (m >>= f).Local P s := by
  intro b t u h hu
  obtain ⟨a, t', hfirst, hsecond⟩ := bind_eq_ok.mp h
  obtain ⟨u', hfirst', hu', hrest, hclock⟩ := hm _ _ _ hfirst hu
  obtain ⟨w, hsecond', hw, hrest', hclock'⟩ := hf hfirst _ _ _ hsecond hu'
  exact ⟨w, bind_eq_ok.mpr ⟨a, u', hfirst', hsecond'⟩, hw, hrest.trans hrest',
    hclock'.trans hclock⟩

theorem local_ite {c : Prop} [Decidable c] {m n : Txn α} (hm : c → m.Local P s)
    (hn : ¬ c → n.Local P s) : (if c then m else n).Local P s := by
  by_cases h : c
  · rw [if_pos h]
    exact hm h
  · rw [if_neg h]
    exact hn h

theorem local_set {key value : Bytes} {mark : UInt8} (hkey : P key) :
    (set key value mark).Local P s := by
  intro a t u h hu
  obtain ⟨hsize, rfl⟩ := set_eq_ok.mp h
  refine ⟨_, set_eq_ok.mpr ⟨hsize, rfl⟩, hu.insert _ _, ?_, rfl⟩
  exact (KeySpace.Agree.refl _).insert_right (not_not.mpr hkey) _

theorem local_delete {key : Bytes} (hkey : P key) : (delete key).Local P s := by
  intro a t u h hu
  obtain ⟨hsize, rfl⟩ := delete_eq_ok.mp h
  refine ⟨_, delete_eq_ok.mpr ⟨hsize, rfl⟩, hu.erase _, fun other hother => ?_, rfl⟩
  refine (KeySpace.stored?_erase_of_ne _ ?_).symm
  rintro rfl
  exact hother hkey

theorem local_forM {xs : List β} {f : β → Txn Unit} (h : ∀ x ∈ xs, ∀ {s}, (f x).Local P s) :
    (xs.forM f).Local P s := by
  induction xs generalizing s with
  | nil => exact local_pure ()
  | cons x xs ih =>
    refine Local.bind (h x List.mem_cons_self) fun _ => ?_
    exact ih fun y hy => h y (List.mem_cons_of_mem x hy)

/-- The rest of the key space is carried along. -/
theorem Local.eq_of_agree {m : Txn α} {a : α} (hm : m.Local P s) (h : m s = .ok a t)
    {u w : KeySpace} (hu : s.keys.Agree P u) (hw : t.keys.Agree P w)
    (hrest : u.Agree (fun key => ¬ P key) w) (clock : Clock) :
    m ⟨u, clock⟩ = .ok a ⟨w, clock⟩ := by
  obtain ⟨⟨keys, clock'⟩, hm', hkeys, hrest', rfl⟩ := hm a t ⟨u, clock⟩ h hu
  obtain rfl : keys = w := KeySpace.ext_stored? fun key => by
    by_cases hkey : P key
    · exact (hkeys key hkey).symm.trans (hw key hkey)
    · exact (hrest' key hkey).symm.trans (hrest key hkey)
  exact hm'

/-- Nothing has changed outside the part. -/
theorem Local.frame {m : Txn α} {a : α} (hm : m.Local P s) (h : m s = .ok a t) :
    s.keys.Agree (fun key => ¬ P key) t.keys ∧ t.clock = s.clock := by
  obtain ⟨w, hw, -, hrest⟩ := hm a t s h (.refl _)
  rw [h] at hw
  cases hw
  exact hrest

/-- The clock does not matter. -/
theorem Local.at_clock {m : Txn α} {a : α} (hm : m.Local P s) (h : m s = .ok a t) (clock : Clock) :
    m ⟨s.keys, clock⟩ = .ok a ⟨t.keys, clock⟩ :=
  hm.eq_of_agree h (.refl _) (.refl _) (hm.frame h).1 clock

/-- A key outside the part may as well be written before. -/
theorem Local.after_insert {m : Txn α} {a : α} (hm : m.Local P s) (h : m s = .ok a t)
    {key : Bytes} (hkey : ¬ P key) (stored : Bytes) (clock : Clock) :
    m ⟨s.keys.insert key stored, clock⟩ = .ok a ⟨t.keys.insert key stored, clock⟩ :=
  hm.eq_of_agree h ((KeySpace.Agree.refl _).insert_right hkey stored)
    ((KeySpace.Agree.refl _).insert_right hkey stored) ((hm.frame h).1.insert _ _) clock

end Txn

namespace Item

variable {P : Bytes → Prop} {s : Session} {item : ItemId} {a b : KeySpace}

/-! ## Reading an index -/

theorem isThere_agree (h : a.Agree P b) (hP : P (Key.version item)) :
    isThere b item = isThere a item := KeySpace.contains_congr (h _ hP).symm

theorem version_agree (h : a.Agree P b) (hP : P (Key.version item)) :
    version b item = version a item := version_congr (h _ hP).symm

theorem version?_agree (h : a.Agree P b) (hP : P (Key.version item)) :
    version? b item = version? a item := by
  unfold version?
  rw [h.get hP]

theorem listAt_agree {α : Type} [Packed α] {key : Bytes} (h : a.Agree P b) (hP : P key) :
    (listAt b key : Outcome (List α)) = listAt a key := by
  unfold listAt
  rw [h.get hP]

/-! ## Writing an index -/

variable (hsub : ∀ k, P (Key.sub item k))

include hsub

theorem local_setVersion (n : Nat) : (setVersion item n).Local P s :=
  Txn.local_ite (fun _ => Txn.local_set (hsub .version)) fun _ => Txn.local_refuse _

theorem local_setList {α : Type} [Packed α] (k : SubKey) (xs : List α) :
    (setList (Key.sub item k) xs).Local P s :=
  (Txn.local_lift _).bind fun _ => Txn.local_set (hsub k)

theorem local_initIndex : (initIndex item).Local P s := by
  refine (local_setVersion hsub 0).bind fun _ => ?_
  refine (local_setList hsub .aliases []).bind fun _ => ?_
  exact local_setList hsub (.view []) []

theorem local_recordSlot (slot : Nat) (id : EventId) (kind : UInt8) :
    (recordSlot item slot id kind).Local P s :=
  (Txn.local_set (hsub (.slot _))).bind fun _ => local_setVersion hsub _

/-- The aliases that the item has in `s` belong to the part. -/
theorem local_teardown (hpointer : ∀ {xs}, aliasList s.keys item = .ok xs →
    ∀ x ∈ xs, P (Key.pointer x)) : (teardown item).Local P s := by
  refine (Txn.local_query fun keys h => listAt_agree h (hsub .aliases)).bind fun hquery => ?_
  obtain ⟨hlist, rfl⟩ := Txn.query_eq_ok.mp hquery
  refine (Txn.local_forM fun x hx _ => Txn.local_delete (hpointer hlist x hx)).bind fun _ => ?_
  refine (Txn.local_delete (hsub .aliases)).bind fun _ => ?_
  refine (Txn.local_query fun keys h => listAt_agree h (hsub (.view []))).bind fun _ => ?_
  refine (Txn.local_forM fun name _ _ => Txn.local_delete (hsub (.view name))).bind fun _ => ?_
  refine (Txn.local_delete (hsub (.view []))).bind fun _ => ?_
  refine (Txn.local_query fun keys h => version?_agree h (hsub .version)).bind fun _ => ?_
  refine (Txn.local_forM fun n _ _ => Txn.local_delete (hsub (.slot _))).bind fun _ => ?_
  exact Txn.local_delete (hsub .version)

theorem local_link {aliasId : ItemId} (hpointer : P (Key.pointer aliasId)) :
    (link item aliasId).Local P s := by
  refine (Txn.local_set hpointer).bind fun _ => ?_
  refine (Txn.local_query fun keys h => listAt_agree h (hsub .aliases)).bind fun _ => ?_
  exact local_setList hsub .aliases _

theorem local_unlink {aliasId : ItemId} (hpointer : P (Key.pointer aliasId)) :
    (unlink item aliasId).Local P s := by
  refine (Txn.local_delete hpointer).bind fun _ => ?_
  refine (Txn.local_query fun keys h => listAt_agree h (hsub .aliases)).bind fun _ => ?_
  exact local_setList hsub .aliases _

theorem local_startIndex (event : Event) : (startIndex item event).Local P s := by
  refine Txn.local_ite (fun _ => ?_) fun _ => Txn.local_pure _
  refine (Txn.local_query fun keys h => isThere_agree h (hsub .version)).bind fun _ => ?_
  exact Txn.local_ite (fun _ => (Txn.local_refuse _).bind fun _ => local_initIndex hsub)
    fun _ => local_initIndex hsub

theorem local_settle {event : Event}
    (hlist : ∀ {xs}, aliasList s.keys item = .ok xs → ∀ x ∈ xs, P (Key.pointer x))
    (htarget : ∀ {x}, event.aliasTarget = .ok x → P (Key.pointer x)) :
    (settle item event).Local P s := by
  refine Txn.local_ite (fun _ => local_teardown hsub hlist) fun _ => ?_
  refine Txn.local_ite (fun _ => ?_) fun _ => Txn.local_ite (fun _ => ?_) fun _ => Txn.local_pure _
  · exact (Txn.local_lift _).bind fun hlift => local_link hsub (htarget (Txn.lift_eq_ok.mp hlift).1)
  · exact (Txn.local_lift _).bind fun hlift => local_unlink hsub (htarget (Txn.lift_eq_ok.mp hlift).1)

end Item
end Chronicle
