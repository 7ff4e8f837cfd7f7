import Mathlib
import Chronicle.Item.Family
import Chronicle.Proofs.ItemEntries

/-!
# Reading a family

The log and the index of an item are two records of the same appends. Page after page, the events of
a family that the log has are those that were appended to its items, deleted ones included, and for
an item that was never deleted its index has the same events.
-/
namespace Chronicle

variable {keys : KeySpace} {p : UInt8} {stem item : ItemId} {all entries : List LogEvent}
  {found : ItemEvent} {e : LogEvent} {s t : Session}

/-- The item event in the entry, if it belongs to the family. -/
def LogEvent.member? (stem : ItemId) (e : LogEvent) : Option ItemEvent :=
  if Kind.isItem e.mark then e.itemEvent.toOption.filter fun found => found.item.extends? stem
  else none

theorem LogEvent.member?_eq (hmark : Kind.isItem e.mark = true) (hreads : e.itemEvent = .ok found) :
    e.member? stem = if found.item.extends? stem then some found else none := by
  simp [member?, hmark, hreads, Except.toOption, Option.filter_some]

namespace Item

/-- Reads a family page after page, `count` of them at most. -/
def familyPages (keys : KeySpace) (stem : ItemId) (last : EventId) (size : Nat) :
    Nat → EventId → Outcome (Page (List ItemEvent))
  | 0, first => .ok ⟨[], some first⟩
  | count + 1, first => do
    let page ← family keys stem first last size
    match page.next with
    | none => return page
    | some next =>
      let rest ← familyPages keys stem last size count next
      return ⟨page.events ++ rest.events, rest.next⟩

end Item

/-! ## Pages of a family -/

/-- Every entry of an item holds an item event. -/
def Log.Readable (events : List LogEvent) : Prop :=
  ∀ e ∈ events, Kind.isItem e.mark = true → ∃ found, e.itemEvent = .ok found

namespace Log.Lists

variable {n size count : Nat} {first : EventId}

theorem family_eq (h : Lists keys p all) (hreadable : Readable all) (hsize : 0 < size)
    (hpartition : first.partition = p) (hstart : Starts all n first) (stem : ItemId) :
    Item.family keys stem first (.last p) size =
      .ok ⟨((all.drop n).take size).filterMap (LogEvent.member? stem),
        ((all.drop n).drop size).head?.map LogEvent.id⟩ := by
  refine h.collect_eq hsize hpartition hstart fun e he => ?_
  cases hmark : Kind.isItem e.mark with
  | false => simp [LogEvent.member?, hmark, pure, Except.pure]
  | true =>
    obtain ⟨found, hfound⟩ := hreadable e he hmark
    simp [LogEvent.member?_eq hmark hfound, hfound, bind, Except.bind, pure, Except.pure]

/-- The pages amount to all that lies behind their start. -/
theorem familyPages_eq (h : Lists keys p all) (hreadable : Readable all) (hsize : 0 < size)
    (hpartition : first.partition = p) (hstart : Starts all n first)
    (hcount : (all.drop n).length < count) (stem : ItemId) :
    Item.familyPages keys stem (.last p) size count first =
      .ok ⟨(all.drop n).filterMap (LogEvent.member? stem), none⟩ := by
  induction count generalizing n first with
  | zero => exact absurd hcount (Nat.not_lt_zero _)
  | succ count ih =>
    rw [Item.familyPages, h.family_eq hreadable hsize hpartition hstart]
    cases hnext : (all.drop n).drop size with
    | nil =>
      have hall : (all.drop n).take size = all.drop n :=
        List.take_of_length_le (List.drop_eq_nil_iff.1 hnext)
      simp [bind, Except.bind, pure, Except.pure, hall]
    | cons e rest =>
      -- the next page starts at the first event behind this one
      have hdrop : all.drop (n + size) = e :: rest := by rw [← hnext, List.drop_drop]
      have he : (all.drop (n + size)).head? = some e := by rw [hdrop]; rfl
      have hmem : e ∈ all := List.mem_of_mem_drop (List.mem_of_mem_head? he)
      have hlength : (all.drop (n + size)).length < count := by
        have hlt := congrArg List.length hdrop
        simp at hcount hlt ⊢
        omega
      have hrest := ih (h.partition e hmem) (h.starts_at he) hlength
      have hsplit : (all.drop n).take size ++ all.drop (n + size) = all.drop n := by
        rw [← List.drop_drop, List.take_append_drop]
      simp [bind, Except.bind, pure, Except.pure, hrest, ← List.filterMap_append, hsplit]

end Log.Lists

/-! ## What the log has of a family -/

theorem LogEvent.id_of_itemEvent (h : e.itemEvent = .ok found) : found.event.id = e.id := by
  obtain ⟨envelope, -, h⟩ := Outcome.bind_eq_ok.mp h
  cases h
  rfl

theorem filterMap_member? {events : List ItemEvent}
    (h : List.Forall₂ LogEvent.StandsFor entries events) (hstem : stem.tag.toNat = p.toNat) :
    (entries.filter fun e => e.id.partition = p).filterMap (LogEvent.member? stem) =
      events.filter fun found => found.item.tag = stem.tag ∧ stem.name <+: found.item.name := by
  induction h with
  | nil => rfl
  | @cons e found entries events hfound _ ih =>
    by_cases hp : e.id.partition = p
    · rw [List.filter_cons_of_pos (by simpa using hp), List.filterMap_cons,
        LogEvent.member?_eq hfound.isItem hfound.reads, ih]
      by_cases hfamily : found.item.tag = stem.tag ∧ stem.name <+: found.item.name
      · simp [ItemId.extends?_iff.2 hfamily, hfamily]
      · have hextends : ¬ found.item.extends? stem = true := fun h => hfamily (ItemId.extends?_iff.1 h)
        simp [hextends, hfamily]
    · have htag : found.item.tag ≠ stem.tag := by
        intro htag
        apply hp
        rw [← UInt8.toNat_inj, hfound.owns, htag, hstem]
      simp [hp, htag, ih]

namespace Run

/-- The item events that a run has appended to items of a family, which have the tag of the stem and
names that begin with its name. -/
def familyEvents (stem : ItemId) (trace : List Step) : List ItemEvent :=
  (itemEvents trace).filter fun found =>
    found.item.tag = stem.tag ∧ stem.name <+: found.item.name

namespace Filed

variable {trace : List Step}

theorem exists_itemEvent {events : List ItemEvent}
    (h : List.Forall₂ LogEvent.StandsFor entries events) (he : e ∈ entries) :
    ∃ found, e.itemEvent = .ok found := by
  induction h with
  | nil => cases he
  | cons hfound _ ih =>
    rcases List.mem_cons.1 he with rfl | he
    · exact ⟨_, hfound.reads⟩
    · exact ih he

theorem readable (h : Filed trace s entries) (hall : Log.Lists s.keys p all) :
    Log.Readable all := by
  intro e he hmark
  have hentry : e ∈ entries := (h.mem e).2 ⟨(hall.mem_iff.1 he).1, hmark⟩
  exact exists_itemEvent h.events hentry

/-- The entries of items in a partition, in the order of the log and in that of the run. -/
theorem filter_eq (h : Filed trace s entries) (hall : Log.Lists s.keys p all) :
    (all.filter fun e => Kind.isItem e.mark) = entries.filter fun e => e.id.partition = p := by
  have hsorted := List.pairwise_map.1 (h.order p).pairwise
  refine KeySpace.eq_of_mem_iff (fun _ _ => EventId.Before.asymm) (hall.sorted.filter _) hsorted
    fun e => ?_
  simp only [List.mem_filter, hall.mem_iff, h.mem, decide_eq_true_eq]
  tauto

theorem filterMap_member?_eq (h : Filed trace s entries) (hall : Log.Lists s.keys p all)
    (hstem : stem.tag.toNat = p.toNat) : all.filterMap (LogEvent.member? stem) =
      familyEvents stem trace := by
  rw [familyEvents, ← filterMap_member? h.events hstem, ← h.filter_eq hall, List.filterMap_filter]
  refine List.filterMap_congr fun e _ => ?_
  by_cases hmark : Kind.isItem e.mark <;> simp [LogEvent.member?, hmark]

/-- Each appended event has an identity of its own, and these ascend. -/
theorem pairwise_ids (h : Filed trace s entries) (hall : Log.Lists s.keys p all)
    (hstem : stem.tag.toNat = p.toNat) :
    (familyEvents stem trace).Pairwise fun a b => a.event.id.Before b.event.id := by
  have hid : ∀ {e : LogEvent} {found : ItemEvent}, e.member? stem = some found →
      found.event.id = e.id := by
    intro e found hmember
    unfold LogEvent.member? at hmember
    split_ifs at hmember with hmark
    obtain ⟨hreads, -⟩ := Option.filter_eq_some_iff.1 hmember
    exact LogEvent.id_of_itemEvent (Outcome.eq_ok_of_toOption hreads)
  rw [← h.filterMap_member?_eq hall hstem]
  refine List.pairwise_filterMap.2 (hall.sorted.imp fun hab x hx y hy => ?_)
  rwa [hid hx, hid hy]

end Filed
end Run

/-! ## What the index has of an item -/

/-- The events that a run has appended to an item, whether the item has lived on or not. -/
def Run.eventsOf (item : ItemId) (trace : List Step) : List Event :=
  ((itemEvents trace).filter fun found => found.item = item).map ItemEvent.event

theorem Step.item?_of_itemEvent? {step : Step} (h : step.itemEvent? = some found) :
    step.op.item? = some found.item := by
  obtain ⟨appended, happended, rfl⟩ := Option.map_eq_some_iff.1 h
  rcases step with ⟨op, reply, before, after⟩
  cases op with
  | ensure =>
    simp only [Op.itemEvent?] at happended
    split at happended <;> cases happended
    rfl
  | mutate m =>
    obtain ⟨event, -, rfl⟩ := Option.map_eq_some_iff.1 happended
    rfl
  | sync | log | logAt => cases happended
  | _ =>
    cases happended
    rfl

namespace Streams

variable {streams : Streams}

theorem getD_extend (event : Event) (id : EventId) (h : (streams item).isSome = true) :
    (streams.extend item event id item).getD [] =
      (streams item).getD [] ++ [{ event with id := id }] := by
  obtain ⟨events, hevents⟩ := Option.isSome_iff_exists.1 h
  simp [extend, hevents]

theorem getD_begin (id : EventId) (h : streams item = none) :
    (streams.begin item id item).getD [] =
      (streams item).getD [] ++ [{ Event.lifecycle .created [] with id := id }] := by
  simp [begin, h]

end Streams

namespace Run

variable {trace : List Step} {clock : Clock} {op : Op} {reply : Reply} {map : Streams}

theorem eventsOf_snoc (item : ItemId) (trace : List Step) (step : Step) :
    eventsOf item (trace ++ [step]) = eventsOf item trace ++
      (step.itemEvent?.toList.filter fun found => found.item = item).map ItemEvent.event := by
  simp [eventsOf, itemEvents_snoc]

/-- A step that does not delete the item adds to its stream what it appends. -/
theorem getD_next (hready : op.Ready s.keys) (hitem : op.item? = some item)
    (hop : op.run s = .ok reply t) (hkept : op ≠ .delete item)
    (h : Item.Holds s.keys item (map item)) :
    (map.next ⟨op, reply, s.keys, t.keys⟩ item).getD [] = (map item).getD [] ++
      ((Step.mk op reply s.keys t.keys).itemEvent?.map ItemEvent.event).toList := by
  have hlive : ∀ {slot : Nat}, Item.version s.keys item = .ok slot →
      (map item).isSome = true := fun hversion => h.isSome (Item.isThere_of_version hversion).1
  cases Op.done hready hitem hop with
  | create hcreate => exact Streams.getD_begin _ (h.eq_none (Item.create_extends hcreate).1)
  | put hput => exact Streams.getD_extend _ _ (hlive (Item.put_extends hput).1)
  | addAlias hadd =>
    obtain ⟨slot, hversion, -⟩ := Item.addAlias_extends hadd
    exact Streams.getD_extend _ _ (hlive hversion)
  | removeAlias hremove =>
    obtain ⟨slot, hversion, -⟩ := Item.removeAlias_extends hremove
    exact Streams.getD_extend _ _ (hlive hversion)
  | delete => exact absurd rfl hkept
  | sync => simp [Streams.next, Step.itemEvent?, Op.itemEvent?]
  | found hthere =>
    rw [Streams.next_found (h.isSome hthere)]
    simp [Step.itemEvent?, Op.itemEvent?, hthere]
  | ensure hthere =>
    have hnone := h.eq_none hthere
    rw [Streams.next_ensure hnone, Streams.getD_begin _ hnone]
    simp [Step.itemEvent?, Op.itemEvent?, ItemEvent.under, hthere]
  | mutate hevent hput =>
    rw [Streams.next_mutate hevent, Streams.getD_extend _ _ (hlive (Item.putNext_extends hput).1)]
    simp [Step.itemEvent?, Op.itemEvent?, ItemEvent.under, hevent, Except.toOption]

theorem filter_familyEvents (item : ItemId) (trace : List Step) :
    ((familyEvents item trace).filter fun found => found.item = item) =
      (itemEvents trace).filter fun found => found.item = item := by
  rw [familyEvents, List.filter_filter]
  refine List.filter_congr fun found _ => ?_
  by_cases hitem : found.item = item <;> simp [hitem]

/-- The stream of an item that is never deleted is all that was appended to it. -/
theorem eventsOf_eq (h : Reached clock trace s) (hclear : Clear trace item)
    (hkept : ∀ step ∈ trace, step.op ≠ .delete item) :
    eventsOf item trace = (streams trace item).getD [] := by
  induction h with
  | start => rfl
  | abort _ _ _ _ ih => exact ih hclear hkept
  | @step trace s t op reply h hready hop ih =>
    have hbefore : Clear trace item := fun step hstep =>
      hclear step (List.mem_append_left _ hstep)
    have hlast := hkept _ (List.mem_append_right _ List.mem_cons_self)
    rw [eventsOf_snoc, streams_snoc,
      ih hbefore fun step hstep => hkept step (List.mem_append_left _ hstep)]
    by_cases hitem : op.item? = some item
    · rw [getD_next hready hitem hop hlast (holds_of_reached h hbefore)]
      cases hevent : (Step.mk op reply s.keys t.keys).itemEvent? with
      | none => simp
      | some found =>
        have hfound := (Step.item?_of_itemEvent? hevent).symm.trans hitem
        simp [Option.some.inj hfound]
    · have hother : ∀ a, op.item? = some a → a ≠ item := fun a ha heq => hitem (heq ▸ ha)
      rw [Streams.next_of_ne hother]
      cases hevent : (Step.mk op reply s.keys t.keys).itemEvent? with
      | none => simp
      | some found =>
        have hne : found.item ≠ item := fun heq => hitem (heq ▸ Step.item?_of_itemEvent? hevent)
        simp [hne]

/-- An item that is there and was never deleted has in its index what was appended to it. -/
theorem load_eventsOf (h : Reached clock trace s) (hclear : Clear trace item)
    (hkept : ∀ step ∈ trace, step.op ≠ .delete item)
    (hthere : Item.isThere s.keys item = .ok true) :
    ∃ loaded, Item.load s.keys item 0 0 = .ok loaded ∧ loaded.events = eventsOf item trace := by
  have hholds := holds_of_reached h hclear
  have hsome := hholds.isThere
  rw [hthere] at hsome
  obtain ⟨events, hevents⟩ := Option.isSome_iff_exists.1 (Except.ok.inj hsome).symm
  rw [hevents] at hholds
  refine ⟨_, Item.load_eq hholds.1 hholds.2.1 0 0, ?_⟩
  rw [eventsOf_eq h hclear hkept, hevents]
  rfl

end Run

/-! ## The result -/

namespace Run

/-- Whatever the size of the pages, the pages of a family come to an end, and together they have
exactly the events that the run has appended to items of the family, in the order in which it has
appended them and each under an identity of its own. Those of an item that is there and was never
deleted are what its index has. -/
theorem family_reads_run (txns : List (List Op)) (clock : Clock) (stem : ItemId) {size : Nat}
    (hclock : Monotone clock.readings) (hkinds : ∀ ops ∈ txns, ∀ op ∈ ops, op.KeepsKinds)
    (htag : stem.tag.toNat ≤ 255) (hsize : 0 < size) :
    (∀ count, Log.eventCount (result txns clock) < count →
      Item.familyPages (result txns clock) stem (.last stem.tag.toUInt8) size count
        (.first stem.tag.toUInt8) = .ok ⟨familyEvents stem (trace txns clock), none⟩) ∧
    (familyEvents stem (trace txns clock)).Pairwise (fun a b => a.event.id.Before b.event.id) ∧
    (Item.isThere (result txns clock) stem = .ok true →
      (∀ step ∈ trace txns clock, step.op ≠ .delete stem) → Clear (trace txns clock) stem →
      ∃ loaded, Item.load (result txns clock) stem 0 0 = .ok loaded ∧
        loaded.events = ((familyEvents stem (trace txns clock)).filter
          fun found => found.item = stem).map ItemEvent.event) := by
  have hreached := reached txns clock
  have hkinds_trace : ∀ step ∈ trace txns clock, step.op.KeepsKinds :=
    forall_mem_trace (fun _ _ => trivial) hkinds
  obtain ⟨entries, hentries⟩ := hreached.filed hclock hkinds_trace
  have hsound : Log.Sound (result txns clock) := ⟨hreached.wellFormed, hentries.marked⟩
  obtain ⟨all, hall⟩ := hsound.exists_lists stem.tag.toUInt8
  have hstem : stem.tag.toNat = stem.tag.toUInt8.toNat := by
    rw [UInt16.toNat_toUInt8]
    omega
  refine ⟨fun count hcount => ?_, hentries.pairwise_ids hall hstem, fun hthere hkept hclear => ?_⟩
  · have hlength := hall.length_le.trans_lt hcount
    have hpages := hall.familyPages_eq (hentries.readable hall) hsize rfl hall.starts_first
      hlength stem
    rwa [List.drop_zero, hentries.filterMap_member?_eq hall hstem] at hpages
  · obtain ⟨loaded, hload, hloaded⟩ := load_eventsOf hreached hclear hkept hthere
    rw [eventsOf, ← filter_familyEvents] at hloaded
    exact ⟨loaded, hload, hloaded⟩

/-- Two items of a family, one of which is deleted and created again, and an item of the same tag that
is not in the family. The entry that is no item's takes the time of the first creation, and the third
transaction is aborted. -/
def twoIncarnations : List (List Op) :=
  [[.create ⟨1, [120]⟩, .create ⟨1, [119]⟩, .put ⟨1, [120]⟩ (Event.entity [] [7])],
    [.create ⟨1, [120, 121]⟩, .logAt 1 5 (.new 1 []), .delete ⟨1, [120, 121]⟩],
    [.create ⟨1, [120, 121]⟩, .create ⟨1, [120]⟩],
    [.create ⟨1, [120, 121]⟩, .addAlias ⟨1, [120]⟩ ⟨1, [122]⟩]]

theorem family_reads_twoIncarnations :
    (∃ events, Item.familyPages (result twoIncarnations (.steady 5 1)) ⟨1, [120]⟩ (.last 1) 2 9
        (.first 1) = .ok ⟨events, none⟩ ∧
      events.map (fun found => (found.item.name, found.event.id.timestamp)) =
        [([120], 5), ([120], 7), ([120, 121], 8), ([120, 121], 9), ([120, 121], 11),
          ([120], 12)]) ∧
    ∃ loaded, Item.load (result twoIncarnations (.steady 5 1)) ⟨1, [120]⟩ 0 0 = .ok loaded ∧
      loaded.events.map (fun event => event.id.timestamp) = [5, 7, 12] := by
  have hkinds : ∀ ops ∈ twoIncarnations, ∀ op ∈ ops, op.KeepsKinds := by
    simp [twoIncarnations, Op.KeepsKinds, Event.entity, Event.new]
    decide
  have hthere : Item.isThere (result twoIncarnations (.steady 5 1)) ⟨1, [120]⟩ = .ok true :=
    Outcome.eq_ok_of_toOption (by decide +kernel)
  have hkept : ∀ step ∈ trace twoIncarnations (.steady 5 1), step.op ≠ .delete ⟨1, [120]⟩ :=
    forall_mem_trace (Q := fun op => op ≠ .delete ⟨1, [120]⟩) (fun _ _ h => by cases h)
      (by simp [twoIncarnations])
  have hclear : Clear (trace twoIncarnations (.steady 5 1)) ⟨1, [120]⟩ := by
    have hself := ItemId.not_continues_self ⟨1, [120]⟩
    have hlonger : ¬ ItemId.Continues ⟨1, [120, 121]⟩ ⟨1, [120]⟩ := by
      have hmarks : (121 : UInt8) ≠ Key.slotMark ∧ (121 : UInt8) ≠ Key.viewMark := by decide
      simp [ItemId.Continues, hmarks]
    have hshorter : ¬ ItemId.Continues ⟨1, [120]⟩ ⟨1, [120, 121]⟩ :=
      ItemId.not_continues_of_length (by decide)
    have hother : ¬ ItemId.Continues ⟨1, [119]⟩ ⟨1, [120]⟩ ∧ ¬ ItemId.Continues ⟨1, [120]⟩ ⟨1, [119]⟩ :=
      ⟨ItemId.not_continues_of_length le_rfl, ItemId.not_continues_of_length le_rfl⟩
    refine forall_mem_trace (Q := fun op => ∀ a, op.item? = some a →
      ¬ a.Continues ⟨1, [120]⟩ ∧ ¬ ItemId.Continues ⟨1, [120]⟩ a) (fun _ h => h) ?_
    simp [twoIncarnations, Op.item?, hself, hlonger, hshorter, hother]
  obtain ⟨hpages, -, hindex⟩ := family_reads_run twoIncarnations (.steady 5 1) ⟨1, [120]⟩
    (monotone_steady 5 1) hkinds (by decide) (by decide : 0 < 2)
  obtain ⟨loaded, hload, hevents⟩ := hindex hthere hkept hclear
  refine ⟨⟨_, hpages 9 (by decide +kernel), by decide +kernel⟩, loaded, hload, ?_⟩
  rw [hevents]
  decide +kernel

end Run
end Chronicle
