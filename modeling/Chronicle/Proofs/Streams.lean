import Mathlib
import Chronicle.Proofs.Run
import Chronicle.Proofs.Slots

/-!
# Items as lists of events

A run of a store seen from outside is a map from items to the events appended to them since
they were created. `streams` reads this map off the trace of a run, and what the store answers
about an item is what the map says, for every run in which the names of the items keep apart.
-/
namespace Chronicle

/-! ## The map -/

/-- The identity that a step has added to the log, if it has added one. -/
def Step.newId (step : Step) : EventId :=
  ((step.after.toList.filterMap fun entry => (EventId.decode entry.1).toOption).filter fun id =>
    (step.before.stored? (Key.log id)).isNone).headD .zero

/-- The events of the items that exist. -/
abbrev Streams := ItemId → Option (List Event)

namespace Streams

def begin (streams : Streams) (item : ItemId) (id : EventId) : Streams :=
  Function.update streams item (some [{ Event.lifecycle .created [] with id := id }])

def extend (streams : Streams) (item : ItemId) (event : Event) (id : EventId) : Streams :=
  Function.update streams item ((streams item).map (· ++ [{ event with id := id }]))

/-- What a step does to the events of its item. -/
def next (streams : Streams) (step : Step) : Streams :=
  match step.op with
  | .create item => streams.begin item step.newId
  | .put item event => streams.extend item event step.newId
  | .addAlias item aliasId =>
    streams.extend item (Event.lifecycle .aliased aliasId.encode) step.newId
  | .removeAlias item aliasId =>
    streams.extend item (Event.lifecycle .unaliased aliasId.encode) step.newId
  | .delete item => Function.update streams item none
  | .ensure =>
    if (streams registryItem).isSome then streams else streams.begin registryItem step.newId
  | .mutate m =>
    match m.change.toEvent with
    | .ok event => streams.extend registryItem event step.newId
    | .error _ => streams
  | .sync _ _ _ _ | .log _ _ | .logAt _ _ _ => streams

end Streams

/-- The events of the items after a run. -/
def streams (trace : List Step) : Streams := trace.foldl Streams.next fun _ => none

theorem streams_snoc (trace : List Step) (step : Step) :
    streams (trace ++ [step]) = (streams trace).next step := by
  rw [streams, List.foldl_append]
  rfl

namespace Streams

variable {streams : Streams} {step : Step} {item : ItemId}

/-- A step is about one item. -/
theorem next_of_ne (h : ∀ a, step.op.item? = some a → a ≠ item) :
    streams.next step item = streams item := by
  unfold next
  rcases step with ⟨op, reply, before, after⟩
  cases op with
  | sync | log | logAt => rfl
  | ensure =>
    dsimp only
    split_ifs
    · rfl
    · exact Function.update_of_ne (h _ rfl).symm _ _
  | mutate m =>
    dsimp only
    cases m.change.toEvent with
    | error fault => rfl
    | ok event => exact Function.update_of_ne (h _ rfl).symm _ _
  | _ => exact Function.update_of_ne (h _ rfl).symm _ _

variable {reply : Reply} {before after : KeySpace}

theorem next_found (h : (streams registryItem).isSome = true) :
    streams.next ⟨.ensure, reply, before, after⟩ = streams := if_pos h

theorem next_ensure (h : streams registryItem = none) :
    streams.next ⟨.ensure, reply, before, after⟩ =
      streams.begin registryItem (Step.mk .ensure reply before after).newId :=
  if_neg (by simp [h])

theorem next_mutate {m : Mutation} {event : Event} (h : m.change.toEvent = .ok event) :
    streams.next ⟨.mutate m, reply, before, after⟩ =
      streams.extend registryItem event (Step.mk (.mutate m) reply before after).newId := by
  simp only [next, h]

end Streams

/-- The identities in the log of `after` that are not in the log of `before`. -/
def Log.newIds (before after : KeySpace) : List EventId :=
  (after.toList.filterMap fun entry => (EventId.decode entry.1).toOption).filter fun id =>
    (before.stored? (Key.log id)).isNone

theorem Log.mem_newIds {before after : KeySpace} {id : EventId} : id ∈ newIds before after ↔
    before.stored? (Key.log id) = none ∧ after.stored? (Key.log id) ≠ none := by
  simp only [newIds, List.mem_filter, List.mem_filterMap, Prod.exists, Option.isNone_iff_eq_none]
  constructor
  · rintro ⟨⟨key, stored, hstored, hid⟩, hnone⟩
    have hkey : EventId.decode key = .ok id := Outcome.eq_ok_of_toOption hid
    rw [EventId.decode_eq_ok_iff.mp hkey, KeySpace.mem_toList] at hstored
    exact ⟨hnone, by rw [hstored]; exact Option.some_ne_none _⟩
  · rintro ⟨hnone, hsome⟩
    obtain ⟨stored, hstored⟩ := Option.ne_none_iff_exists'.mp hsome
    exact ⟨⟨_, _, KeySpace.mem_toList.mpr hstored, by rw [EventId.decode_log]; rfl⟩, hnone⟩

theorem Log.head?_newIds {before after : KeySpace} {e : LogEvent} (h : Adds before after e) :
    (newIds before after).head? = some e.id := by
  have hmem : ∀ id, id ∈ newIds before after ↔ id = e.id := by
    intro id
    rw [mem_newIds]
    constructor
    · rintro ⟨hnone, hsome⟩
      by_contra hne
      exact hsome ((h.others id hne).trans hnone)
    · rintro rfl
      exact ⟨h.free.1, by rw [h.entry]; exact Option.some_ne_none _⟩
  generalize newIds before after = ids at hmem ⊢
  cases ids with
  | nil => exact absurd ((hmem e.id).mpr rfl) (by simp)
  | cons id ids => exact congrArg some ((hmem id).mp List.mem_cons_self)

/-- A step that adds an entry to the log has its identity. -/
theorem Step.newId_eq {op : Op} {reply : Reply} {before after : KeySpace} {e : LogEvent}
    (h : Log.Adds before after e) : (Step.mk op reply before after).newId = e.id := by
  change (Log.newIds before after).headD .zero = e.id
  rw [List.headD_eq_head?_getD, Log.head?_newIds h]
  rfl

/-! ## The store and the map -/

/-- What the store keeps of an item is what the map says: nothing, or its events with their
number as the version. -/
def Item.Holds (keys : KeySpace) (item : ItemId) : Option (List Event) → Prop
  | none => isThere keys item = .ok false
  | some events => version keys item = .ok events.length ∧ Stored keys item 0 events ∧
    ∀ event ∈ events, Logged keys item event

namespace Item

variable {s t : Session} {item : ItemId} {stream : Option (List Event)}

theorem Holds.isThere (h : Holds s.keys item stream) :
    isThere s.keys item = .ok stream.isSome := by
  cases stream with
  | none => exact h
  | some events => exact (isThere_of_version h.1).1

theorem Holds.isSome (h : Holds s.keys item stream) (hthere : Item.isThere s.keys item = .ok true) :
    stream.isSome = true := by
  rw [h.isThere, Except.ok.injEq] at hthere
  exact hthere

theorem Holds.eq_none (h : Holds s.keys item stream)
    (hthere : Item.isThere s.keys item = .ok false) : stream = none := by
  rw [h.isThere, Except.ok.injEq] at hthere
  simpa using hthere

theorem Logged.within {F : Bytes → Prop} {event : Event} (h : Logged s.keys item event)
    (hwithin : s.Within F t) : Logged t.keys item event := by
  obtain ⟨payload, hpayload, hstored⟩ := h
  exact ⟨payload, hpayload, hwithin.log hstored⟩

/-- What an item holds needs its version and the slots below it only. -/
theorem Holds.within_below {F : Bytes → Prop} {events : List Event}
    (h : Holds s.keys item (some events)) (hwithin : s.Within F t)
    (hversion : ¬ F (Key.version item))
    (hslot : ∀ n < events.length, ¬ F (Key.slot item (UInt64.ofNat n))) :
    Holds t.keys item (some events) := by
  obtain ⟨hcount, hstored, hlogged⟩ := h
  refine ⟨?_, ?_, fun event hevent => (hlogged event hevent).within hwithin⟩
  · rw [version_congr (hwithin.frame hversion)]
    exact hcount
  · exact hstored.transport fun n event _ hn =>
      hwithin.slotEvent (hwithin.frame (hslot n (by omega)))

/-- Writes that leave version and slots alone change nothing. -/
theorem Holds.within {F : Bytes → Prop} (h : Holds s.keys item stream) (hwithin : s.Within F t)
    (hversion : ¬ F (Key.version item)) (hslot : ∀ n, ¬ F (Key.slot item n)) :
    Holds t.keys item stream := by
  cases stream with
  | none => exact isThere_eq_false_iff.mpr ((hwithin.frame hversion).trans (isThere_eq_false_iff.mp h))
  | some events => exact h.within_below hwithin hversion fun n _ => hslot _

theorem Extends.logged {slot : Nat} {event : Event} {a b : KeySpace}
    (h : Extends item slot event a b) : Logged b item event := by
  obtain ⟨payload, hpayload, hadds⟩ := h.adds
  exact ⟨payload, hpayload, hadds.entry⟩

theorem Extends.logged_before {slot : Nat} {event old : Event} {a b : KeySpace}
    (h : Extends item slot event a b) (hold : Logged a item old) : Logged b item old := by
  obtain ⟨payload, -, hadds⟩ := h.adds
  obtain ⟨stored, hstored, hlog⟩ := hold
  refine ⟨stored, hstored, ?_⟩
  rw [hadds.others old.id, hlog]
  intro heq
  have hfree := hadds.free.1
  rw [show (LogEvent.mk event.kind event.id payload).id = old.id from heq.symm, hlog] at hfree
  cases hfree

/-- A new event goes to the end. -/
theorem Holds.extends {slot : Nat} {event : Event} {a b : KeySpace} (h : Holds a item stream)
    (hversion : version a item = .ok slot) (hextends : Extends item slot event a b) :
    ∃ events, stream = some events ∧ events.length = slot ∧
      Holds b item (some (events ++ [event])) := by
  cases stream with
  | none =>
    have hthere := (isThere_of_version hversion).1
    rw [show Item.isThere a item = .ok false from h] at hthere
    cases hthere
  | some events =>
    obtain ⟨hcount, hstored, hlogged⟩ := h
    rw [hversion, Except.ok.injEq] at hcount
    subst hcount
    refine ⟨events, rfl, rfl, ?_, ?_, ?_⟩
    · rw [hextends.version, List.length_append, List.length_singleton]
    · rw [stored_append, Nat.zero_add]
      exact ⟨hstored.transport fun n e _ hn => hextends.older n e (by omega), hextends.last, trivial⟩
    · intro e he
      rcases List.mem_append.mp he with he | he
      · exact hextends.logged_before (hlogged e he)
      · rw [List.mem_singleton.mp he]
        exact hextends.logged

/-- A new item holds the event that created it. -/
theorem Extends.holds {event : Event} {a b : KeySpace} (h : Extends item 0 event a b) :
    Holds b item (some [event]) :=
  ⟨h.version, ⟨h.last, trivial⟩, fun e he => by rw [List.mem_singleton.mp he]; exact h.logged⟩

theorem Stored.slotEvent {keys : KeySpace} {events : List Event} {n : Nat}
    (h : Stored keys item 0 events) (hn : n < events.length) :
    slotEvent keys item n = .ok events[n] := by
  have hlast := h.drop n hn.le
  rw [Nat.zero_add, List.drop_eq_getElem_cons hn] at hlast
  exact hlast.1

/-! ## Reading a stream -/

/-- The events from `first` on, and no further than `last` if that lies past `first`. -/
def window (events : List Event) (first last : Nat) : List Event :=
  if first < last then (events.take (last + 1)).drop first else events.drop first

/-- The position of the last event of a window. -/
def windowEnd (events : List Event) (first last : Nat) : Option Nat :=
  if window events first last = [] then none
  else some (first + (window events first last).length - 1)

theorem foldEvents_collect (events : List Event) (slot : Nat) (found : List Event) :
    foldEvents (fun events _ event => .ok (.next (event :: events))) events slot found =
      .ok (events.reverse ++ found) := by
  induction events generalizing slot found with
  | nil => rfl
  | cons event events ih =>
    rw [List.reverse_cons, List.append_assoc, List.singleton_append, ← ih (slot + 1)]
    rfl

theorem load_eq {keys : KeySpace} {events : List Event} (hversion : version keys item = .ok events.length)
    (hstored : Stored keys item 0 events) (first last : Nat) :
    load keys item first last = .ok ⟨item, events.length - 1, windowEnd events first last,
      window events first last⟩ := by
  obtain ⟨stop, hstop⟩ : ∃ stop, stop = if first < last then min (last + 1) events.length
    else events.length := ⟨_, rfl⟩
  have hle : stop ≤ events.length := by rw [hstop]; split_ifs <;> omega
  have hwindow : window events first last = (events.take stop).drop first := by
    rw [hstop, window]
    split_ifs
    · rw [← List.take_eq_take_min]
    · rw [List.take_length]
  have hlength : (window events first last).length = stop - first := by
    rw [hwindow, List.length_drop, List.length_take, Nat.min_eq_left hle]
  have hend : windowEnd events first last = if first < stop then some (stop - 1) else none := by
    simp only [windowEnd, ← List.length_eq_zero_iff, hlength]
    split_ifs with hzero hlt hlt
    · omega
    · rfl
    · congr 1
      omega
    · omega
  have hread : Stored keys item first (window events first last) := by
    rw [hwindow]
    rcases Nat.lt_or_ge first stop with hlt | hge
    · have h := (hstored.take stop).drop first (by rw [List.length_take]; omega)
      rwa [Nat.zero_add] at h
    · rw [List.drop_eq_nil_of_le (by rw [List.length_take]; omega)]
      trivial
  have hfold : foldSlots keys item (fun events _ event => .ok (.next (event :: events)))
      (stop - first) first [] = .ok (window events first last).reverse := by
    rw [← hlength, foldSlots_eq hread, foldEvents_collect, List.append_nil]
  unfold load
  rw [hversion]
  simp only [bind, Except.bind, ← hstop, hfold, pure, Except.pure, List.reverse_reverse, hend]

end Item

/-! ## Runs -/

namespace Run

variable {clock : Clock} {trace : List Step} {s t : Session} {item : ItemId}

/-- One step about the item. -/
theorem holds_step {op : Op} {reply : Reply} {map : Streams} (hready : op.Ready s.keys)
    (hitem : op.item? = some item) (hop : op.run s = .ok reply t)
    (h : Item.Holds s.keys item (map item)) :
    Item.Holds t.keys item (map.next ⟨op, reply, s.keys, t.keys⟩ item) := by
  have hextend : ∀ {event : Event} {slot : Nat} {id : EventId} {op : Op},
      Item.version s.keys item = .ok slot →
      Item.Extends item slot { event with id := id } s.keys t.keys →
      Item.Holds t.keys item
        (map.extend item event (Step.mk op reply s.keys t.keys).newId item) := by
    intro event slot id op hversion hextends
    obtain ⟨payload, -, hadds⟩ := hextends.adds
    obtain ⟨events, hstream, -, hholds⟩ := h.extends hversion hextends
    rw [Step.newId_eq hadds, Streams.extend, Function.update_self, hstream]
    exact hholds
  have hbegin : ∀ {id : EventId} {op : Op},
      Item.Extends item 0 { Event.lifecycle .created [] with id := id } s.keys t.keys →
      Item.Holds t.keys item (map.begin item (Step.mk op reply s.keys t.keys).newId item) := by
    intro id op hextends
    obtain ⟨payload, -, hadds⟩ := hextends.adds
    rw [Step.newId_eq hadds, Streams.begin, Function.update_self]
    exact hextends.holds
  cases Op.done hready hitem hop with
  | create hcreate =>
    obtain ⟨-, id, hextends⟩ := Item.create_extends hcreate
    exact hbegin hextends
  | put hput =>
    obtain ⟨hversion, id, hextends⟩ := Item.put_extends hput
    exact hextend hversion hextends
  | addAlias hadd =>
    obtain ⟨slot, hversion, id, hextends⟩ := Item.addAlias_extends hadd
    exact hextend hversion hextends
  | removeAlias hremove =>
    obtain ⟨slot, hversion, id, hextends⟩ := Item.removeAlias_extends hremove
    exact hextend hversion hextends
  | delete hdelete =>
    rw [Streams.next]
    dsimp only
    rw [Function.update_self]
    exact (Item.delete_spec hdelete).1
  | sync hsync => exact h.within (Item.sync_aside hsync) Item.not_aside_version Item.not_aside_slot
  | found hthere hsame =>
    subst hsame
    rw [Streams.next_found (h.isSome hthere)]
    exact h
  | ensure hthere hcreate =>
    obtain ⟨-, id, hextends⟩ := Item.create_extends hcreate
    rw [Streams.next_ensure (h.eq_none hthere)]
    exact hbegin hextends
  | mutate hevent hput =>
    obtain ⟨hversion, id, hextends⟩ := Item.putNext_extends hput
    rw [Streams.next_mutate hevent]
    exact hextend hversion hextends

/-- The items that a run is about keep apart from the item. -/
def Clear (trace : List Step) (item : ItemId) : Prop :=
  ∀ step ∈ trace, ∀ a, step.op.item? = some a → ¬ a.Continues item ∧ ¬ item.Continues a

theorem Clear.apart {step : Step} {a : ItemId} (h : Clear trace item) (hstep : step ∈ trace)
    (ha : step.op.item? = some a) (hne : a ≠ item) : a.Apart item := by
  obtain ⟨hca, hac⟩ := h step hstep a ha
  exact ItemId.apart_of_not_continues hne hac hca

theorem holds_of_reached (h : Reached clock trace s) (hclear : Clear trace item) :
    Item.Holds s.keys item (streams trace item) := by
  induction h with
  | start => exact Item.isThere_eq_false_iff.mpr (KeySpace.stored?_empty _)
  | abort h hkeys hreadings htaken ih => rw [hkeys]; exact ih hclear
  | @step trace s t op reply h hready hop ih =>
    have hbefore := ih fun step hstep => hclear step (List.mem_append_left _ hstep)
    rw [streams_snoc]
    by_cases hitem : op.item? = some item
    · exact holds_step hready hitem hop hbefore
    · have hne : ∀ a, op.item? = some a → a ≠ item := fun a ha heq => hitem (heq ▸ ha)
      have hapart : ∀ a, op.item? = some a → a.Apart item := fun a ha =>
        hclear.apart (List.mem_append_right _ List.mem_cons_self) ha (hne a ha)
      rw [Streams.next_of_ne hne]
      exact hbefore.within (Txn.Keeps.writes_of_ok op.writes hop).within
        (Op.not_touches_sub hapart .version) fun n => Op.not_touches_sub hapart (.slot n)

/-- A put answers the position of its event. -/
theorem reply_of_reached (h : Reached clock trace s) (hclear : Clear trace item)
    {before after : List Step} {step : Step} {event : Event} (hsplit : trace = before ++ step :: after)
    (hput : step.op = .put item event) :
    ∃ events, streams before item = some events ∧ step.reply = .number events.length := by
  obtain ⟨u, w, hreached, -, hop, -⟩ := h.at_step hsplit
  have hbefore : Clear before item := fun step hstep =>
    hclear step (hsplit ▸ List.mem_append_left _ hstep)
  rw [hput] at hop
  obtain ⟨slot, hput, hreply⟩ := Txn.map_eq_ok.mp hop
  obtain ⟨hversion, id, hextends⟩ := Item.put_extends hput
  obtain ⟨events, hstream, rfl, -⟩ := (holds_of_reached hreached hbefore).extends hversion hextends
  exact ⟨events, hstream, hreply.symm⟩

end Run

/-! ## Existence -/

/-- The step creates the item, or finds it created. -/
def Step.Creates (step : Step) (item : ItemId) : Prop :=
  step.op = .create item ∨ step.op = .ensure ∧ item = registryItem

/-- After its last creation the item has not been deleted. -/
def LastCreated (trace : List Step) (item : ItemId) : Prop :=
  ∃ before step after, trace = before ++ step :: after ∧ step.Creates item ∧
    ∀ later ∈ after, later.op ≠ .delete item

theorem lastCreated_snoc {trace : List Step} {last : Step} {item : ItemId} :
    LastCreated (trace ++ [last]) item ↔
      last.Creates item ∨ last.op ≠ .delete item ∧ LastCreated trace item := by
  constructor
  · rintro ⟨before, step, after, hsplit, hcreates, hlater⟩
    rcases List.eq_nil_or_concat after with rfl | ⟨rest, step', rfl⟩
    · rw [← List.concat_eq_append, ← List.concat_eq_append, List.concat_inj] at hsplit
      rw [hsplit.2]
      exact .inl hcreates
    · rw [List.concat_eq_append, ← List.cons_append, ← List.append_assoc,
        ← List.concat_eq_append, ← List.concat_eq_append, List.concat_inj] at hsplit
      obtain ⟨hsplit, rfl⟩ := hsplit
      rw [List.concat_eq_append] at hlater
      exact .inr ⟨hlater _ (List.mem_append_right _ List.mem_cons_self), before, step, rest, hsplit,
        hcreates, fun later h => hlater later (List.mem_append_left _ h)⟩
  · rintro (hcreates | ⟨hlast, before, step, after, rfl, hcreates, hlater⟩)
    · exact ⟨trace, last, [], rfl, hcreates, nofun⟩
    · refine ⟨before, step, after ++ [last], by simp, hcreates, fun later h => ?_⟩
      rcases List.mem_append.mp h with h | h
      · exact hlater later h
      · rwa [List.mem_singleton.mp h]

namespace Streams

variable {streams : Streams} {a item : ItemId} {id : EventId}

theorem isSome_begin :
    (streams.begin a id item).isSome = true ↔ item = a ∨ (streams item).isSome = true := by
  unfold begin
  by_cases h : item = a
  · subst h
    simp
  · simp [h]

theorem isSome_extend {event : Event} :
    (streams.extend a event id item).isSome = (streams item).isSome := by
  unfold extend
  by_cases h : item = a
  · subst h
    simp
  · rw [Function.update_of_ne h]

theorem isSome_next {step : Step} : (streams.next step item).isSome = true ↔
    step.Creates item ∨ step.op ≠ .delete item ∧ (streams item).isSome = true := by
  rcases step with ⟨op, reply, before, after⟩
  unfold next Step.Creates
  cases op with
  | create a =>
    dsimp only
    rw [isSome_begin, Op.create.injEq, eq_comm]
    simp
  | put | addAlias | removeAlias =>
    rw [isSome_extend]
    simp
  | delete a =>
    by_cases h : item = a
    · subst h
      simp
    · simp [Function.update_of_ne h, Ne.symm h]
  | ensure =>
    dsimp only
    split_ifs with h
    · by_cases hitem : item = registryItem <;> simp [hitem, h]
    · rw [isSome_begin]
      simp
  | mutate m =>
    dsimp only
    cases m.change.toEvent with
    | error fault => simp
    | ok event =>
      rw [isSome_extend]
      simp
  | sync | log | logAt => simp

theorem begin_eq_some {events : List Event} (h : streams.begin a id item = some events) :
    streams item = some events ∨
      ∃ id, events = [{ Event.lifecycle .created [] with id := id }] := by
  unfold begin at h
  by_cases hitem : item = a
  · rw [hitem, Function.update_self, Option.some.injEq] at h
    exact .inr ⟨id, h.symm⟩
  · rw [Function.update_of_ne hitem] at h
    exact .inl h

theorem extend_eq_some {event : Event} {events : List Event}
    (h : streams.extend a event id item = some events) :
    streams item = some events ∨
      ∃ before last, streams item = some before ∧ events = before ++ [last] := by
  unfold extend at h
  by_cases hitem : item = a
  · subst hitem
    rw [Function.update_self, Option.map_eq_some_iff] at h
    obtain ⟨before, hbefore, rfl⟩ := h
    exact .inr ⟨before, _, hbefore, rfl⟩
  · rw [Function.update_of_ne hitem] at h
    exact .inl h

/-- A step leaves a stream as it was, begins it or adds an event to it. -/
theorem next_eq_some {step : Step} {events : List Event}
    (h : streams.next step item = some events) : streams item = some events ∨
      (∃ id, events = [{ Event.lifecycle .created [] with id := id }]) ∨
      ∃ before last, streams item = some before ∧ events = before ++ [last] := by
  rcases step with ⟨op, reply, before, after⟩
  unfold next at h
  cases op with
  | create a => exact (begin_eq_some h).imp_right .inl
  | put | addAlias | removeAlias => exact (extend_eq_some h).imp_right .inr
  | delete a =>
    dsimp only at h
    by_cases hitem : item = a
    · rw [hitem, Function.update_self] at h
      cases h
    · rw [Function.update_of_ne hitem] at h
      exact .inl h
  | ensure =>
    dsimp only at h
    split_ifs at h with hsome
    · exact .inl h
    · exact (begin_eq_some h).imp_right .inl
  | mutate m =>
    dsimp only at h
    cases hevent : m.change.toEvent with
    | error fault =>
      rw [hevent] at h
      exact .inl h
    | ok event =>
      rw [hevent] at h
      exact (extend_eq_some h).imp_right .inr
  | sync | log | logAt => exact .inl h

end Streams

theorem isSome_streams_iff (trace : List Step) (item : ItemId) :
    (streams trace item).isSome = true ↔ LastCreated trace item := by
  induction trace using List.reverseRecOn with
  | nil => simp [streams, LastCreated]
  | append_singleton trace step ih => rw [streams_snoc, Streams.isSome_next, lastCreated_snoc, ih]

/-- A stream starts with the event of its creation. -/
theorem created_of_streams {trace : List Step} {item : ItemId} {events : List Event}
    (h : streams trace item = some events) :
    ∃ id rest, events = { Event.lifecycle .created [] with id := id } :: rest := by
  induction trace using List.reverseRecOn generalizing events with
  | nil => cases h
  | append_singleton trace step ih =>
    rw [streams_snoc] at h
    rcases Streams.next_eq_some h with hbefore | ⟨id, rfl⟩ | ⟨before, event, hbefore, rfl⟩
    · exact ih hbefore
    · exact ⟨id, [], rfl⟩
    · obtain ⟨id, rest, rfl⟩ := ih hbefore
      exact ⟨id, rest ++ [event], rfl⟩

/-! ## The result -/

namespace Run

/-- What a store answers about an item after a run is what the trace of the run says: whether it
exists, how many events it has, which these are at any positions, and where they stand in the log.
Each put has answered the position of its event. -/
theorem run_refines_streams (txns : List (List Op)) (clock : Clock) {item : ItemId}
    (hclear : Clear (trace txns clock) item) :
    (Item.isThere (result txns clock) item = .ok (streams (trace txns clock) item).isSome ∧
      ((streams (trace txns clock) item).isSome = true ↔ LastCreated (trace txns clock) item)) ∧
    (∀ events, streams (trace txns clock) item = some events →
      Item.version (result txns clock) item = .ok events.length ∧
      (∀ first last, Item.load (result txns clock) item first last =
        .ok ⟨item, events.length - 1, Item.windowEnd events first last,
          Item.window events first last⟩) ∧
      ∀ event ∈ events, Item.Logged (result txns clock) item event) ∧
    ∀ before step after event, trace txns clock = before ++ step :: after →
      step.op = .put item event →
        ∃ events, streams before item = some events ∧ step.reply = .number events.length := by
  have hreached := reached txns clock
  have hholds := holds_of_reached hreached hclear
  refine ⟨⟨hholds.isThere, isSome_streams_iff _ _⟩, fun events hevents => ?_,
    fun before step after event hsplit hput => reply_of_reached hreached hclear hsplit hput⟩
  rw [hevents] at hholds
  obtain ⟨hversion, hstored, hlogged⟩ := hholds
  exact ⟨hversion, Item.load_eq hversion hstored, hlogged⟩

/-- A run about items with names of one length, none of which goes on where another ends. -/
theorem clear_of_length {txns : List (List Op)} {clock : Clock} {item : ItemId}
    (h : ∀ ops ∈ txns, ∀ op ∈ ops, ∀ a, op.item? = some a → a.name.length = item.name.length) :
    Clear (trace txns clock) item := by
  intro step hstep a ha
  have hlength : a.name.length = item.name.length := forall_mem_trace
    (Q := fun op => ∀ a, op.item? = some a → a.name.length = item.name.length) (fun _ h => h) h
    step hstep a ha
  exact ⟨ItemId.not_continues_of_length hlength.le, ItemId.not_continues_of_length hlength.ge⟩

/-- A run about a single item. -/
theorem clear_of_alone {txns : List (List Op)} {clock : Clock} {item : ItemId}
    (h : ∀ ops ∈ txns, ∀ op ∈ ops, ∀ a, op.item? = some a → a = item) :
    Clear (trace txns clock) item := by
  apply clear_of_length
  intro ops hops op hop a ha
  rw [h ops hops op hop a ha]

namespace TwoItems

def x : ItemId := ⟨1, [120]⟩

def y : ItemId := ⟨1, [121]⟩

/-- The second item is deleted in the end. The last transaction fails and leaves nothing. -/
def txns : List (List Op) :=
  [[.create x, .put x (.entity [1] []), .create y],
    [.put y (.entity [2] []), .put x (.entity [3] [4]), .delete y],
    [.put x (.entity [5] []), .create x]]

theorem clear_one_byte {item : ItemId} (h : item.name.length = 1) :
    Clear (trace txns (.steady 5 1)) item :=
  clear_of_length (by simp [txns, Op.item?, x, y, h])

end TwoItems

open TwoItems in
/-- The first item has three events, and the second one is gone. -/
theorem run_refines_twoItems :
    Clear (trace txns (.steady 5 1)) x ∧ Clear (trace txns (.steady 5 1)) y ∧
      (LastCreated (trace txns (.steady 5 1)) x ∧
        Item.isThere (result txns (.steady 5 1)) x = .ok true) ∧
      (¬ LastCreated (trace txns (.steady 5 1)) y ∧
        Item.isThere (result txns (.steady 5 1)) y = .ok false) ∧
      ∃ events, streams (trace txns (.steady 5 1)) x = some events ∧ events.length = 3 ∧
        Item.version (result txns (.steady 5 1)) x = .ok 3 ∧
        Item.load (result txns (.steady 5 1)) x 1 2 =
          .ok ⟨x, 2, Item.windowEnd events 1 2, Item.window events 1 2⟩ ∧
        ∀ event ∈ events, Item.Logged (result txns (.steady 5 1)) x event := by
  have hx : Clear (trace txns (.steady 5 1)) x := clear_one_byte rfl
  have hy : Clear (trace txns (.steady 5 1)) y := clear_one_byte rfl
  have hthree : (streams (trace txns (.steady 5 1)) x).map List.length = some 3 := by decide +kernel
  have hgone : (streams (trace txns (.steady 5 1)) y).isSome = false := by decide +kernel
  obtain ⟨events, hevents, hlength⟩ := Option.map_eq_some_iff.mp hthree
  obtain ⟨⟨hthere, hlast⟩, hreads, -⟩ := run_refines_streams txns (.steady 5 1) hx
  obtain ⟨⟨hthere', hlast'⟩, -, -⟩ := run_refines_streams txns (.steady 5 1) hy
  have hsome : (streams (trace txns (.steady 5 1)) x).isSome = true := by
    rw [hevents]
    rfl
  obtain ⟨hversion, hload, hlogged⟩ := hreads events hevents
  rw [hsome] at hthere
  rw [hgone] at hthere'
  rw [hlength] at hversion
  refine ⟨hx, hy, ⟨hlast.mp hsome, hthere⟩, ⟨fun h => ?_, hthere'⟩, events, hevents, hlength, hversion,
    ?_, hlogged⟩
  · rw [hlast'.mpr h] at hgone
    cases hgone
  · rw [hload, hlength]

end Run
end Chronicle
