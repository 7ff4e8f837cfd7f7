import Mathlib
import Chronicle.Proofs.Counters
import Chronicle.Proofs.DirectoryStore
import Chronicle.Proofs.Effects

/-!
# Effects in stores

An event that an item has been given has its effect on the directory of the store, and can have it
on the directory of any other store that admits it. A takeover passes over the events that no item
has.
-/
namespace Chronicle

/-! ## The effect of an event -/

def ItemEvent.effect? (found : ItemEvent) : Option Effect :=
  if found.event.isLifecycle .created then some (.create found.item)
  else if found.event.isLifecycle .deleted then some (.delete found.item)
  else if found.event.isLifecycle .aliased then
    found.event.aliasTarget.toOption.map (.link found.item)
  else if found.event.isLifecycle .unaliased then
    found.event.aliasTarget.toOption.map (.unlink found.item)
  else some (.count found.item)

/-- The effect that the takeover of a log entry has, if it is the event of an item. -/
def LogEvent.effect? (e : LogEvent) : Option Effect :=
  if Kind.isItem e.mark then e.itemEvent.toOption.bind ItemEvent.effect? else none

namespace Effect

/-- What an event does before it takes its slot. -/
def start : Effect → Txn Unit
  | create a => Item.startIndex a (Event.lifecycle .created [])
  | count _ | link _ _ | unlink _ _ | delete _ => pure ()

/-- What an event does after it has taken its slot. -/
def settle : Effect → Txn Unit
  | create _ | count _ => pure ()
  | link a x => Item.link a x
  | unlink a x => Item.unlink a x
  | delete a => Item.teardown a

end Effect

theorem Event.isLifecycle_unique {event : Event} {a b : Lifecycle} (ha : event.isLifecycle a = true)
    (hb : event.isLifecycle b = true) : a = b := by
  simp only [isLifecycle, decide_eq_true_eq] at ha hb
  have htype := ha.2.symm.trans hb.2
  revert htype
  cases a <;> cases b <;> decide

/-- The parts of a takeover, by the effect of the event. -/
theorem ItemEvent.effect?_eq_some {found : ItemEvent} {f : Effect} (h : found.effect? = some f) :
    f.item = found.item ∧ Item.startIndex found.item found.event = f.start ∧
      Item.settle found.item found.event = f.settle := by
  have hstart : ¬ found.event.isLifecycle .created = true →
      Item.startIndex found.item found.event = pure () := fun hcreated =>
    funext fun _ => Item.startIndex_of_not_created (by simpa using hcreated)
  unfold effect? at h
  split_ifs at h with hcreated hdeleted haliased hunaliased
  · cases h
    have hnot : ∀ b, b ≠ .created → ¬ found.event.isLifecycle b = true :=
      fun b hne hb => hne (Event.isLifecycle_unique hb hcreated)
    refine ⟨rfl, ?_, ?_⟩
    · rw [Effect.start, Item.startIndex, Item.startIndex, if_pos hcreated]
      rfl
    · rw [Item.settle, if_neg (hnot .deleted (by decide)), if_neg (hnot .aliased (by decide)),
        if_neg (hnot .unaliased (by decide))]
      rfl
  · cases h
    refine ⟨rfl, hstart hcreated, ?_⟩
    rw [Item.settle, if_pos hdeleted]
    rfl
  · obtain ⟨x, htarget, rfl⟩ := Option.map_eq_some_iff.mp h
    refine ⟨rfl, hstart hcreated, ?_⟩
    rw [Item.settle, if_neg hdeleted, if_pos haliased, Outcome.eq_ok_of_toOption htarget]
    rfl
  · obtain ⟨x, htarget, rfl⟩ := Option.map_eq_some_iff.mp h
    refine ⟨rfl, hstart hcreated, ?_⟩
    rw [Item.settle, if_neg hdeleted, if_neg haliased, if_pos hunaliased,
      Outcome.eq_ok_of_toOption htarget]
    rfl
  · cases h
    refine ⟨rfl, hstart hcreated, ?_⟩
    rw [Item.settle, if_neg hdeleted, if_neg haliased, if_neg hunaliased]
    rfl

theorem LogEvent.effect?_eq_some {e : LogEvent} {f : Effect} (h : e.effect? = some f) :
    Kind.isItem e.mark = true ∧ ∃ found, e.itemEvent = .ok found ∧ found.effect? = some f := by
  unfold effect? at h
  split_ifs at h with hkind
  obtain ⟨found, hfound, heffect⟩ := Option.bind_eq_some_iff.mp h
  exact ⟨hkind, found, Outcome.eq_ok_of_toOption hfound, heffect⟩

/-- An append has found room for its slot. -/
theorem Item.room_of_append {s t : Session} {item : ItemId} {slot : Nat} {event : Event} {v : Unit}
    (h : append item slot event s = .ok v t) :
    item.name.length + 12 ≤ Txn.keyLimit ∧ slot + 1 < Bytes.capacity 8 := by
  obtain ⟨partition, payload, id, u, -, -, -, hrecord⟩ := append_eq_ok h
  refine ⟨?_, (recordSlot_eq_ok hrecord).1⟩
  obtain ⟨_, w, hset, -⟩ := Txn.bind_eq_ok.mp hrecord
  have hlength := (Txn.set_eq_ok.mp hset).1.2
  have hslot : (Key.slot item (UInt64.ofNat slot)).length = item.name.length + 4 + 8 := by
    refine (Key.length_sub item (.slot _)).trans ?_
    rw [SubKey.suffix, Bytes.length_bigEndian]
  omega

theorem Item.startIndex_created {s t : Session} {a : ItemId} {v : Unit} :
    startIndex a (Event.lifecycle .created []) s = .ok v t ↔
      isThere s.keys a = .ok false ∧ initIndex a s = .ok v t := by
  constructor
  · intro h
    obtain ⟨there, u, hquery, h⟩ := Txn.bind_eq_ok.mp h
    obtain ⟨hthere, rfl⟩ := Txn.query_eq_ok.mp hquery
    obtain ⟨hnot, hinit⟩ := Txn.refuse_if_eq_ok.mp h
    rw [Bool.not_eq_true] at hnot
    exact ⟨hnot ▸ hthere, hinit⟩
  · rintro ⟨hthere, hinit⟩
    exact Txn.bind_eq_ok.mpr ⟨false, s, Txn.query_eq_ok.mpr ⟨hthere, rfl⟩,
      Txn.refuse_if_eq_ok.mpr ⟨Bool.false_ne_true, hinit⟩⟩

/-- What the takeover of an event does, by the effect of the event. -/
theorem LogEvent.replicate_eq_ok {e : LogEvent} {f : Effect} {s t : Session} {v : Unit}
    (heffect : e.effect? = some f) : Item.replicate e s = .ok v t ↔ ∃ s₁ slot s₂,
      f.start s = .ok () s₁ ∧ Item.version s₁.keys f.item = .ok slot ∧
        Item.recordSlot f.item slot e.id e.mark s₁ = .ok () s₂ ∧ f.settle s₂ = .ok v t := by
  obtain ⟨-, found, hfound, hsome⟩ := effect?_eq_some heffect
  obtain ⟨hitem, hstart, hsettle⟩ := ItemEvent.effect?_eq_some hsome
  rw [Item.replicate_eq_ok, hitem, ← hstart, ← hsettle]
  constructor
  · rintro ⟨other, s₁, slot, s₂, hother, hparts⟩
    rw [hfound, Except.ok.injEq] at hother
    subst hother
    exact ⟨s₁, slot, s₂, hparts⟩
  · rintro ⟨s₁, slot, s₂, hparts⟩
    exact ⟨found, s₁, slot, s₂, hfound, hparts⟩

/-- A takeover loses no entry of the log. -/
theorem Item.log_of_replicate {e : LogEvent} {s t : Session} {v : Unit} {id : EventId}
    (hlog : s.keys.stored? (Key.log e.id) ≠ none) (hrun : replicate e s = .ok v t)
    (hid : s.keys.stored? (Key.log id) ≠ none) : t.keys.stored? (Key.log id) ≠ none := by
  obtain ⟨stored, hstored⟩ := Option.ne_none_iff_exists'.mp hid
  rw [((writes_replicate (F := fun _ => True) (fun _ _ => trivial) (fun _ => trivial)
    hlog).of_ok .refl hrun).within.log hstored]
  exact Option.some_ne_none _

/-- Only events of items have effects. -/
theorem LogEvent.filterMap_effect? (events : List LogEvent) :
    (events.filter fun e => Kind.isItem e.mark).filterMap effect? = events.filterMap effect? := by
  rw [List.filterMap_filter]
  refine List.filterMap_congr fun e _ => ?_
  split_ifs with hkind
  · rfl
  · rw [effect?, if_neg hkind]

/-! ## Parts of a takeover -/

variable {P : ItemId → Prop} {s t : Session} {d : Directory} {f : Effect} {a x : ItemId}
  {listing : Listing}

theorem Effect.writes_start {F : Bytes → Prop} {s₀ : Session} (f : Effect)
    (hF : ∀ k, F (Key.sub f.item k)) : f.start.Keeps (s₀.Writes F) := by
  cases f with
  | create a => exact Item.writes_startIndex _ hF
  | count a | link a x | unlink a x | delete a => exact Txn.keeps_pure _

/-- No part of a takeover loses an entry of the log. -/
theorem Effect.start_log (hrun : f.start s = .ok () t) {id : EventId}
    (hlog : s.keys.stored? (Key.log id) ≠ none) : t.keys.stored? (Key.log id) ≠ none := by
  obtain ⟨stored, hstored⟩ := Option.ne_none_iff_exists'.mp hlog
  rw [(Txn.Keeps.writes_of_ok (f.writes_start (F := fun _ => True) fun _ => trivial)
    hrun).within.log hstored]
  exact Option.some_ne_none _

namespace Directory.Shown

theorem indexed (h : Shown P s.keys d) (ha : P a) (hlisting : d.listings a = some listing) :
    Item.Indexed s.keys a (some listing) := hlisting ▸ h.index a ha

section

variable (h : Shown P s.keys d) (hP : Separate P) (ha : P f.item)

include h hP ha

theorem start (hrun : f.start s = .ok () t) : Shown P t.keys (d.begin f) := by
  cases f with
  | create a => exact h.initIndex hP ha (Item.startIndex_created.mp hrun).2
  | count a | link a x | unlink a x | delete a =>
    obtain ⟨-, rfl⟩ := Txn.pure_eq_ok.mp hrun
    exact h

theorem settle (hthere : d.listings f.item ≠ none) (hrun : f.settle s = .ok () t) :
    Shown P t.keys (d.finish f) := by
  cases f with
  | create a | count a =>
    obtain ⟨-, rfl⟩ := Txn.pure_eq_ok.mp hrun
    exact h
  | link a x => exact h.link hP ha hthere hrun
  | unlink a x => exact h.unlink hP ha hthere hrun
  | delete a => exact h.teardown hP ha hthere hrun

end

variable (h : Shown P s.keys d) (ha : P f.item)

include h ha

theorem exists_start (hadmits : d.Admits f) : ∃ t, f.start s = .ok () t := by
  have hfits := hadmits.fits
  cases f with
  | create a =>
    have hthere := (h.index a ha).isThere
    rw [show d.listings a = none from hfits] at hthere
    exact ⟨_, Item.startIndex_created.mpr ⟨hthere, Item.initIndex_of_length hadmits.length⟩⟩
  | count a | link a x | unlink a x | delete a => exact ⟨s, rfl⟩

theorem exists_settle (hlength : f.item.name.length + 12 ≤ Txn.keyLimit)
    (hlisting : d.listings f.item = some listing) (hwritable : f.Writable listing.aliases) :
    ∃ t, f.settle s = .ok () t := by
  obtain ⟨hversion, haliases, names, hviews⟩ := h.indexed ha hlisting
  have hset : ∀ {xs : List ItemId} {bytes : Bytes} (u : Session), record xs = .ok bytes →
      ∃ t, Item.setList (Key.aliases f.item) xs u = .ok () t := by
    intro xs bytes u hbytes
    exact ⟨_, Txn.bind_eq_ok.mpr ⟨bytes, u, Txn.lift_eq_ok.mpr ⟨hbytes, rfl⟩,
      Item.set_of_length hlength (k := .aliases) (Nat.zero_le _)⟩⟩
  cases f with
  | create a | count a => exact ⟨s, rfl⟩
  | link a x =>
    obtain ⟨hpointer, bytes, hbytes⟩ := hwritable
    obtain ⟨t, ht⟩ := hset _ hbytes
    exact ⟨t, Item.link_eq_ok.mpr ⟨hpointer, _, haliases, ht⟩⟩
  | unlink a x =>
    obtain ⟨-, bytes, hbytes⟩ := hwritable
    obtain ⟨t, ht⟩ := hset _ hbytes
    exact ⟨t, Item.unlink_eq_ok.mpr ⟨_, haliases, ht⟩⟩
  | delete a =>
    obtain ⟨t, ht, -⟩ := Item.teardown_of_lists haliases hviews (Item.version?_of_version hversion)
    exact ⟨t, ht⟩

end Directory.Shown

theorem Directory.count_listing (hlisting : d.listings a = some listing) :
    (d.count a).listings a = some ⟨listing.slots + 1, listing.aliases⟩ := by
  rw [count, listings_modify_self, hlisting]
  rfl

/-! ## Takeovers -/

namespace Directory.Shown

/-- An event can be taken over wherever its directory admits it. -/
theorem replicate {e : LogEvent} (h : Shown P s.keys d) (hP : Separate P) (ha : P f.item)
    (heffect : e.effect? = some f) (hadmits : d.Admits f)
    (hlog : s.keys.stored? (Key.log e.id) ≠ none) :
    ∃ t, Item.replicate e s = .ok () t ∧ Shown P t.keys (d.take f) := by
  obtain ⟨listing, hlisting, hslots, hwritable⟩ := hadmits.begin
  obtain ⟨s₁, hstart₁⟩ := h.exists_start ha hadmits
  have h₁ := h.start hP ha hstart₁
  obtain ⟨s₂, hrecord⟩ : ∃ s₂, Item.recordSlot f.item listing.slots e.id e.mark s₁ = .ok () s₂ :=
    ⟨_, Item.recordSlot_of_length hadmits.length hslots e.id e.mark⟩
  have h₂ := h₁.recordSlot hP ha hlisting (Effect.start_log hstart₁ hlog) hrecord
  have hcount := count_listing hlisting
  obtain ⟨t, hsettle₂⟩ := h₂.exists_settle ha hadmits.length hcount hwritable
  have hthere : ((d.begin f).count f.item).listings f.item ≠ none := by
    rw [hcount]
    exact Option.some_ne_none _
  have hversion := (h₁.indexed ha hlisting).1
  exact ⟨t, (LogEvent.replicate_eq_ok heffect).mpr
    ⟨s₁, listing.slots, s₂, hstart₁, hversion, hrecord, hsettle₂⟩, h₂.settle hP ha hthere hsettle₂⟩

/-- An event that has been taken over has had its effect. -/
theorem of_replicate {e : LogEvent} {v : Unit} (h : Shown P s.keys d) (hP : Separate P)
    (ha : P f.item) (heffect : e.effect? = some f) (hlog : s.keys.stored? (Key.log e.id) ≠ none)
    (hrun : Item.replicate e s = .ok v t) : Shown P t.keys (d.take f) := by
  obtain ⟨s₁, slot, s₂, hstart, hversion, hrecord, hsettle⟩ :=
    (LogEvent.replicate_eq_ok heffect).mp hrun
  have h₁ := h.start hP ha hstart
  obtain ⟨listing, hlisting, rfl⟩ := (h₁.index _ ha).eq_some hversion
  have h₂ := h₁.recordSlot hP ha hlisting (Effect.start_log hstart hlog) hrecord
  have hthere : ((d.begin f).count f.item).listings f.item ≠ none := by
    rw [count_listing hlisting]
    exact Option.some_ne_none _
  exact h₂.settle hP ha hthere hsettle

/-- An event that has been carried out was admitted. -/
theorem admits_of_perform {found : ItemEvent} (h : Shown P s.keys d) (hP : Separate P)
    (ha : P f.item) (heffect : found.effect? = some f)
    (hmem : ∀ a x, f = .unlink a x → x ∈ d.aliases a)
    (hrun : Item.perform found.item found.event s = .ok () t) : d.Admits f := by
  obtain ⟨hitem, hstart, hsettle⟩ := ItemEvent.effect?_eq_some heffect
  rw [← hitem] at hstart hsettle hrun
  obtain ⟨s₁, slot, s₂, hstart₁, hslot, happend, hsettle₂⟩ := Item.perform_eq_ok.mp hrun
  rw [hstart] at hstart₁
  rw [hsettle] at hsettle₂
  have h₁ := h.start hP ha hstart₁
  obtain ⟨listing, hlisting, rfl⟩ := (h₁.index _ ha).eq_some hslot
  have h₂ := h₁.append hP ha hlisting happend
  obtain ⟨-, haliases, -⟩ := h₂.indexed ha (count_listing hlisting)
  obtain ⟨hlength, hslots⟩ := Item.room_of_append happend
  refine ⟨hlength, ?_⟩
  cases f with
  | create a =>
    exact (h.index a ha).eq_none (Item.startIndex_created.mp hstart₁).1
  | count a | delete a => exact ⟨listing, hlisting, hslots, trivial⟩
  | link a x =>
    obtain ⟨hpointer, xs, hxs, hset⟩ := Item.link_eq_ok.mp hsettle₂
    obtain rfl : xs = listing.aliases := Except.ok.inj (hxs.symm.trans haliases)
    obtain ⟨bytes, hbytes, -⟩ := Item.setList_eq_ok hset
    exact ⟨listing, hlisting, hslots, hpointer, bytes, hbytes⟩
  | unlink a x =>
    obtain ⟨xs, hxs, hset⟩ := Item.unlink_eq_ok.mp hsettle₂
    obtain rfl : xs = listing.aliases := Except.ok.inj (hxs.symm.trans haliases)
    obtain ⟨bytes, hbytes, -⟩ := Item.setList_eq_ok hset
    have hx : d.aliases a = listing.aliases := aliases_of_listing hlisting
    exact ⟨listing, hlisting, hslots, hx ▸ hmem a x rfl, bytes, hbytes⟩

end Directory.Shown

/-! ## Lists of events taken over -/

theorem LogEvent.keepsCounted_replicate {e : LogEvent} {found : ItemEvent}
    (hfound : e.itemEvent = .ok found) (ha : P found.item) : (Item.replicate e).KeepsCounted P := by
  refine Item.keeps_replicate fun other hother => ?_
  rw [hfound, Except.ok.injEq] at hother
  subst hother
  refine ⟨?_, fun slot => Item.keepsCounted_recordSlot ha slot _ _, ?_⟩
  · exact Item.keeps_startIndex (Item.keepsCounted_initIndex ha)
  · exact Item.keeps_settle Item.keepsCounted_teardown Item.keepsCounted_link
      Item.keepsCounted_unlink

/-- The key space holds what the events have made, and no other item. -/
structure Directory.Replayed (P : ItemId → Prop) (keys : KeySpace) (fs : List Effect) : Prop where
  shown : Shown P keys (replay fs)
  counted : Counted P keys

/-- Events can be taken over one after the other, if each is admitted after those before it. -/
theorem Directory.Replayed.takeover {fs : List Effect} {events : List LogEvent}
    (h : Replayed P s.keys fs) (hP : Separate P)
    (heffect : ∀ e ∈ events, ∃ f, e.effect? = some f ∧ P f.item)
    (hproper : Effect.Proper (fs ++ events.filterMap LogEvent.effect?))
    (hlog : ∀ e ∈ events, s.keys.stored? (Key.log e.id) ≠ none) :
    ∃ t, events.forM Item.replicate s = .ok () t ∧
      Replayed P t.keys (fs ++ events.filterMap LogEvent.effect?) := by
  induction events generalizing s fs with
  | nil => exact ⟨s, rfl, by rwa [List.filterMap_nil, List.append_nil]⟩
  | cons e events ih =>
    obtain ⟨f, hf, ha⟩ := heffect e List.mem_cons_self
    rw [List.filterMap_cons_some hf] at hproper ⊢
    obtain ⟨u, hreplicate, hshown⟩ := h.shown.replicate hP ha hf (hproper fs f _ rfl)
      (hlog e List.mem_cons_self)
    obtain ⟨-, found, hfound, hsome⟩ := LogEvent.effect?_eq_some hf
    have hcounted := (LogEvent.keepsCounted_replicate hfound
      ((ItemEvent.effect?_eq_some hsome).1 ▸ ha)).of_ok h.counted hreplicate
    have hlog' : ∀ other ∈ events, u.keys.stored? (Key.log other.id) ≠ none := fun other hother =>
      Item.log_of_replicate (hlog e List.mem_cons_self) hreplicate
        (hlog other (List.mem_cons_of_mem e hother))
    rw [List.append_cons] at hproper ⊢
    obtain ⟨t, hrest, ht⟩ := ih (s := u) ⟨replay_snoc fs f ▸ hshown, hcounted⟩
      (fun other hother => heffect other (List.mem_cons_of_mem e hother)) hproper hlog'
    exact ⟨t, Txn.bind_eq_ok.mpr ⟨(), u, hreplicate, hrest⟩, ht⟩

/-- Entries of the log are no part of a directory. -/
theorem Directory.Shown.withLog {keys : KeySpace} (h : Shown P keys d) (events : List LogEvent) :
    Shown P (keys.withLog events) d where
  index item hitem := (h.index item hitem).congr (keys.stored?_withLog_sub events item)
  pointer x := (keys.stored?_withLog_pointer events x).trans (h.pointer x)
  outside := h.outside

theorem Directory.Replayed.withLog {keys : KeySpace} {fs : List Effect} (h : Replayed P keys fs)
    (events : List LogEvent) : Replayed P (keys.withLog events) fs := by
  refine ⟨h.shown.withLog events, ?_⟩
  have hcounted := h.counted
  clear h
  induction events generalizing keys with
  | nil => exact hcounted
  | cons e events ih => exact ih (hcounted.insert_log e.id e.mark e.payload)

/-- A page of events can be applied, if those that items have are admitted one after the other. -/
theorem Directory.Replayed.apply {fs : List Effect} {events : List LogEvent}
    (h : Replayed P s.keys fs) (hP : Separate P)
    (heffect : ∀ e ∈ events, Kind.isItem e.mark = true → ∃ f, e.effect? = some f ∧ P f.item)
    (hproper : Effect.Proper (fs ++ events.filterMap LogEvent.effect?)) :
    ∃ t, s.update (Replication.apply events) = (.ok events.length, t) ∧
      Replayed P t.keys (fs ++ events.filterMap LogEvent.effect?) := by
  rw [← LogEvent.filterMap_effect? events] at hproper ⊢
  obtain ⟨t, ht, hreplayed⟩ := (h.withLog events).takeover
    (s := { s with keys := s.keys.withLog events }) hP
    (fun e he => heffect e (List.mem_of_mem_filter he) (List.mem_filter.mp he).2) hproper
    fun e he => s.keys.stored?_withLog_ne_none (.inr ⟨e, List.mem_of_mem_filter he, rfl⟩)
  refine ⟨t, ?_, hreplayed⟩
  exact Txn.update_eq_ok.mpr (Replication.apply_eq_ok.mpr ⟨rfl, ht⟩)

end Chronicle
