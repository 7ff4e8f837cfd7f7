import Mathlib
import Chronicle.Proofs.Streams

/-!
# What a failure leaves

An operation that fails may have written before it failed, and a caller who goes on all the same
keeps these writes. An append that fails has moved no version and no slot below it, so the item holds
what it held; a creation that fails has left no item, or one without events.
-/
namespace Chronicle

namespace Txn

variable {α β : Type} {s t : Session} {fault : Fault}

theorem bind_eq_error {m : Txn α} {f : α → Txn β} : (m >>= f) s = .error fault t ↔
    m s = .error fault t ∨ ∃ a u, m s = .ok a u ∧ f a u = .error fault t := by
  show EStateM.bind m f s = _ ↔ _
  unfold EStateM.bind
  cases h : m s <;> simp

theorem query_eq_error {read : KeySpace → Outcome α} (h : query read s = .error fault t) :
    s = t := by
  unfold query at h
  cases hread : read s.keys <;> rw [hread] at h <;> cases h
  rfl

theorem lift_eq_error {outcome : Outcome α} (h : lift outcome s = .error fault t) : s = t :=
  query_eq_error h

theorem set_eq_error {key value : Bytes} {mark : UInt8} (h : set key value mark s = .error fault t) :
    s = t := by
  unfold set at h
  split_ifs at h
  cases h
  rfl

theorem lift_bind_of_error {outcome : Outcome α} {f : α → Txn β}
    (h : (lift outcome >>= f) s = .error fault t) : t = s ∨ ∃ a, f a s = .error fault t := by
  rcases bind_eq_error.mp h with hlift | ⟨a, u, hlift, h⟩
  · exact .inl (lift_eq_error hlift).symm
  · obtain ⟨-, rfl⟩ := lift_eq_ok.mp hlift
    exact .inr ⟨a, h⟩

theorem refuse_if_of_error {c : Prop} [Decidable c] {refused : Fault} {f : PUnit → Txn β}
    (h : (if c then refuse refused >>= f else f ⟨⟩) s = .error fault t) :
    t = s ∨ f ⟨⟩ s = .error fault t := by
  split_ifs at h
  · cases h
    exact .inl rfl
  · exact .inr h

theorem bind_of_ok {m : Txn α} {f : α → Txn β} {a : α} (h : m s = .ok a t) :
    (m >>= f) s = f a t := by
  show EStateM.bind m f s = _
  rw [EStateM.bind, h]

theorem query_of_ok {read : KeySpace → Outcome α} {a : α} (h : read s.keys = .ok a) :
    query read s = .ok a s := by
  rw [query, h]

theorem leaves_map (m : Txn α) (f : α → β) (s : Session) : (f <$> m).leaves s = m.leaves s := by
  show leaves (EStateM.map f m) s = _
  unfold leaves EStateM.map
  cases m s <;> rfl

theorem leaves_of_error {m : Txn α} (h : m s = .error fault t) : m.leaves s = t := by
  rw [leaves, h]

end Txn

namespace Item

variable {item : ItemId} {s t : Session} {fault : Fault}

/-! ## Appends -/

theorem setVersion_eq_error {n : Nat} (h : setVersion item n s = .error fault t) : s = t := by
  unfold setVersion at h
  split_ifs at h
  · exact Txn.set_eq_error h
  · cases h
    rfl

/-- The keys that an append may have written when it fails. -/
def Unfinished (item : ItemId) (slot : Nat) (key : Bytes) : Prop :=
  (∃ id, key = Key.log id) ∨ key = Key.slot item (UInt64.ofNat slot)

theorem not_unfinished_version {slot : Nat} : ¬ Unfinished item slot (Key.version item) := by
  rintro (⟨id, hid⟩ | hslot)
  · exact Key.sub_ne_log id item .version hid
  · exact Key.sub_ne (x := .version) (y := .slot _) nofun hslot

theorem recordSlot_of_error {slot : Nat} {id : EventId} {kind : UInt8}
    (h : recordSlot item slot id kind s = .error fault t) : s.Within (Unfinished item slot) t := by
  rcases Txn.bind_eq_error.mp h with h | ⟨_, u, hset, h⟩
  · rw [Txn.set_eq_error h]
    exact .refl t
  · rw [← setVersion_eq_error h, (Txn.set_eq_ok.mp hset).2]
    exact .insert s _ (Key.head?_index_ne _ _ _) (.inr rfl)

theorem append_of_error {slot : Nat} {event : Event} (h : append item slot event s = .error fault t) :
    s.Within (Unfinished item slot) t := by
  rcases Txn.bind_eq_error.mp h with h | ⟨partition, u, hlift, h⟩
  · rw [Txn.lift_eq_error h]
    exact .refl t
  obtain ⟨-, rfl⟩ := Txn.lift_eq_ok.mp hlift
  rcases Txn.bind_eq_error.mp h with h | ⟨payload, u, hlift, h⟩
  · rw [Txn.lift_eq_error h]
    exact .refl t
  obtain ⟨-, rfl⟩ := Txn.lift_eq_ok.mp hlift
  have hput := Txn.Keeps.writes_leaves
    (Log.writes_put (F := Unfinished item slot) partition (.new event.kind payload) fun id =>
      .inl ⟨id, rfl⟩) s
  rcases Txn.bind_eq_error.mp h with h | ⟨id, u, hlog, h⟩
  · rw [Txn.leaves_of_error h] at hput
    exact hput.within
  · rw [Txn.leaves_of_ok hlog] at hput
    exact hput.within.trans (recordSlot_of_error h)

variable {events : List Event}

theorem Holds.putNext_of_error {event : Event} (h : Holds s.keys item (some events))
    (hput : putNext item event s = .error fault t) : Holds t.keys item (some events) := by
  rcases Txn.bind_eq_error.mp hput with hput | ⟨slot, u, hquery, hput⟩
  · rwa [← Txn.query_eq_error hput]
  obtain ⟨hversion, rfl⟩ := Txn.query_eq_ok.mp hquery
  have hcount := h.1
  rw [hversion, Except.ok.injEq] at hcount
  subst hcount
  rcases Txn.bind_eq_error.mp hput with happend | ⟨_, u, -, hpure⟩
  · refine h.within_below (append_of_error happend) not_unfinished_version fun n hn => ?_
    rintro (⟨id, hid⟩ | hslot)
    · exact Key.sub_ne_log id item (.slot _) hid
    · exact slot_ne_of_lt hn (isThere_of_version hversion).2 hslot.symm
  · cases hpure

/-! ## Creations -/

/-- The item is not there, or has no event yet. -/
def Bare (keys : KeySpace) (item : ItemId) : Prop :=
  Holds keys item none ∨ Holds keys item (some [])

theorem Bare.within {F : Bytes → Prop} (h : Bare s.keys item) (hwithin : s.Within F t)
    (hversion : ¬ F (Key.version item)) : Bare t.keys item := by
  rcases h with h | h
  · exact .inl (isThere_eq_false_iff.mpr
      ((hwithin.frame hversion).trans (isThere_eq_false_iff.mp h)))
  · exact .inr (h.within_below hwithin hversion nofun)

theorem bare_setVersion (h : Bare s.keys item) :
    Bare ((setVersion item 0).leaves s).keys item := by
  cases hset : setVersion item 0 s with
  | error fault t =>
    rw [Txn.leaves_of_error hset, ← setVersion_eq_error hset]
    exact h
  | ok _ t =>
    obtain ⟨hzero, rfl⟩ := setVersion_eq_ok hset
    rw [Txn.leaves_of_ok hset]
    exact .inr ⟨version_of_stored hzero (KeySpace.stored?_insert_self _ _ _), trivial, nofun⟩

theorem bare_initIndex (h : Bare s.keys item) : Bare ((initIndex item).leaves s).keys item := by
  have hlists : ∀ {s : Session}, ((do
      setList (Key.aliases item) ([] : List ItemId)
      setList (Key.views item) ([] : List Bytes)) : Txn Unit).Keeps
        (s.Writes fun key => key = Key.aliases item ∨ key = Key.views item) :=
    (writes_setAliases [] (.inl rfl)).bind fun _ => writes_setViews [] (.inr rfl)
  have hversion : ¬ (Key.version item = Key.aliases item ∨ Key.version item = Key.views item) := by
    rintro (hkey | hkey)
    · exact Key.sub_ne (x := .version) (y := .aliases) nofun hkey
    · exact Key.sub_ne (x := .version) (y := .view []) nofun hkey
  have hfirst := bare_setVersion h
  unfold initIndex
  rw [Txn.leaves_bind]
  cases hset : setVersion item 0 s with
  | error fault t => rwa [Txn.leaves_of_error hset] at hfirst
  | ok _ t =>
    rw [Txn.leaves_of_ok hset] at hfirst
    exact hfirst.within (Txn.Keeps.writes_leaves hlists t).within hversion

theorem create_of_isThere (h : isThere s.keys item = .ok true) :
    create item s = .error (.itemExists item) s := by
  unfold create
  rw [Txn.bind_of_ok (Txn.query_of_ok h)]
  rfl

theorem bare_of_create_error (h : Holds s.keys item none) (hcreate : create item s = .error fault t) :
    Bare t.keys item := by
  rcases Txn.bind_eq_error.mp hcreate with hquery | ⟨there, u, hquery, hcreate⟩
  · rw [← Txn.query_eq_error hquery]
    exact .inl h
  obtain ⟨hthere, rfl⟩ := Txn.query_eq_ok.mp hquery
  rw [show isThere s.keys item = .ok false from h, Except.ok.injEq] at hthere
  rw [← hthere, if_neg Bool.false_ne_true] at hcreate
  rcases Txn.bind_eq_error.mp hcreate with hlift | ⟨_, u, hlift, hcreate⟩
  · rw [← Txn.lift_eq_error hlift]
    exact .inl h
  obtain ⟨-, rfl⟩ := Txn.lift_eq_ok.mp hlift
  have hinit := bare_initIndex (.inl h)
  rcases Txn.bind_eq_error.mp hcreate with hfault | ⟨_, u, hok, happend⟩
  · rwa [Txn.leaves_of_error hfault] at hinit
  · rw [Txn.leaves_of_ok hok] at hinit
    exact hinit.within (append_of_error happend) not_unfinished_version

end Item

/-! ## Mutations -/

theorem Registry.append_of_error {change : Change} {s t : Session} {fault : Fault}
    {events : List Event} (h : Item.Holds s.keys registryItem (some events))
    (happend : append change s = .error fault t) : Item.Holds t.keys registryItem (some events) := by
  rcases Txn.bind_eq_error.mp happend with hlift | ⟨event, u, hlift, hput⟩
  · rwa [← Txn.lift_eq_error hlift]
  · obtain ⟨-, rfl⟩ := Txn.lift_eq_ok.mp hlift
    exact h.putNext_of_error hput

/-- A mutation that fails has put the item of the registry in place, perhaps, and has failed to
append its change, if it has come to that. -/
theorem Mutation.run_of_error {m : Mutation} {s t : Session} {fault : Fault}
    (h : m.run s = .error fault t) : Registry.ensure s = .error fault t ∨
      ∃ u, Registry.ensure s = .ok () u ∧
        (t = u ∨ Registry.append m.change u = .error fault t) := by
  have hrest : ∀ {f : Registry → Txn Nat}, (Registry.prepare >>= f) s = .error fault t →
      (∀ r u, f r u = .error fault t → t = u ∨ Registry.append m.change u = .error fault t) →
      Registry.ensure s = .error fault t ∨ ∃ u, Registry.ensure s = .ok () u ∧
        (t = u ∨ Registry.append m.change u = .error fault t) := by
    intro f h hf
    rcases Txn.bind_eq_error.mp h with hprepare | ⟨r, u, hprepare, h⟩
    · rcases Txn.bind_eq_error.mp hprepare with hensure | ⟨_, u, hensure, hquery⟩
      · exact .inl hensure
      · exact .inr ⟨u, hensure, .inl (Txn.query_eq_error hquery).symm⟩
    · exact .inr ⟨u, (Registry.prepare_eq_ok.mp hprepare).1, hf r u h⟩
  cases m with
  | createEntityType name => exact hrest h fun r u => Txn.refuse_if_of_error
  | deleteEntityType name =>
    refine hrest h fun r u hu => ?_
    rcases Txn.lift_bind_of_error hu with rfl | ⟨_, happend⟩
    · exact .inl rfl
    · exact .inr happend
  | createEventType entity name schema =>
    refine hrest h fun r u hu => ?_
    rcases Txn.lift_bind_of_error hu with rfl | ⟨_, hu⟩
    · exact .inl rfl
    · exact Txn.refuse_if_of_error hu
  | updateEventType entity name schema =>
    refine hrest h fun r u hu => ?_
    rcases Txn.lift_bind_of_error hu with rfl | ⟨_, hu⟩
    · exact .inl rfl
    · rcases Txn.bind_eq_error.mp hu with happend | ⟨_, _, -, hpure⟩
      · exact .inr happend
      · cases hpure
  | deleteEventType entity name =>
    refine hrest h fun r u hu => ?_
    rcases Txn.lift_bind_of_error hu with rfl | ⟨_, happend⟩
    · exact .inl rfl
    · exact .inr happend

end Chronicle
