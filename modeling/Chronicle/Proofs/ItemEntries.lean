import Mathlib
import Chronicle.Proofs.CallOrder
import Chronicle.Proofs.LogContents
import Chronicle.Proofs.LogOrigins

/-!
# Item events in the log

A run appends item events to many items, in one partition for each type of item, and other entries
stand between them. Whatever the items are called, and also where one is deleted and created again,
the entries of item events in the log are those of the events that the run has appended, and in each
partition they stand in the order in which they were appended.
-/
namespace Chronicle

variable {s t : Session} {item : ItemId} {event : Event} {e : LogEvent} {found : ItemEvent}

/-! ## What a step appends -/

/-- Events that are put are item events, and what else goes into the log is not. -/
def Op.KeepsKinds : Op → Prop
  | .put _ event => Kind.isItem event.kind = true
  | .log _ event | .logAt _ _ event => Kind.isItem event.mark = false
  | _ => True

/-- The item event that the operation appends, with no identity yet. The first half of a mutation
appends one only where the item of the registry is missing. -/
def Op.itemEvent? (keys : KeySpace) : Op → Option ItemEvent
  | .create item => some ⟨item, Event.lifecycle .created []⟩
  | .put item event => some ⟨item, event⟩
  | .addAlias item aliasId => some ⟨item, Event.lifecycle .aliased aliasId.encode⟩
  | .removeAlias item aliasId => some ⟨item, Event.lifecycle .unaliased aliasId.encode⟩
  | .delete item => some ⟨item, Event.lifecycle .deleted []⟩
  | .ensure =>
    match Item.isThere keys registryItem with
    | .ok false => some ⟨registryItem, Event.lifecycle .created []⟩
    | _ => none
  | .mutate m => m.change.toEvent.toOption.map (ItemEvent.mk registryItem)
  | .sync _ _ _ _ | .log _ _ | .logAt _ _ _ => none

def ItemEvent.under (found : ItemEvent) (id : EventId) : ItemEvent :=
  ⟨found.item, { found.event with id := id }⟩

def Step.itemEvent? (step : Step) : Option ItemEvent :=
  (step.op.itemEvent? step.before).map (·.under step.newId)

/-- The item events that a run has appended, of all items and in turn. -/
def Run.itemEvents (trace : List Step) : List ItemEvent := trace.filterMap Step.itemEvent?

theorem Run.itemEvents_snoc (trace : List Step) (step : Step) :
    itemEvents (trace ++ [step]) = itemEvents trace ++ step.itemEvent?.toList := by
  cases h : step.itemEvent? <;> simp [itemEvents, h]

/-- The entry holds the item event and lies in the partition of its item. -/
structure LogEvent.StandsFor (e : LogEvent) (found : ItemEvent) : Prop where
  isItem : Kind.isItem e.mark = true
  reads : e.itemEvent = .ok found
  owns : found.item.Owns e.id

/-- What the log has got from `s` to `t`: an entry of the item event, or none of an item. -/
inductive Session.Enters (s t : Session) : Option ItemEvent → Prop
  | nothing (h : Log.Same s.keys t.keys) : Enters s t none
  | other {e : LogEvent} (hmark : Kind.isItem e.mark = false) (h : Log.Adds s.keys t.keys e) :
      Enters s t none
  | event {e : LogEvent} {found : ItemEvent} (hfound : e.StandsFor (found.under e.id))
      (h : s.Puts e t) : Enters s t (some found)

theorem Log.putAt_adds {p : UInt8} {time : UInt64} {event : LogEvent} {id : EventId}
    (h : putAt p time event s = .ok id t) : Adds s.keys t.keys { event with id := id } := by
  obtain ⟨-, -, hfree, rfl⟩ := putAt_eq_ok h
  refine ⟨hfree, KeySpace.stored?_insert_self _ _ _, fun other hother => ?_⟩
  exact KeySpace.stored?_insert_of_ne _ _ fun heq => hother (Key.log_injective heq).symm

theorem Log.Has.eq {keys : KeySpace} {a b : LogEvent} (ha : Has keys a) (hb : Has keys b)
    (hid : a.id = b.id) : a = b := by
  rw [Has, hid, hb, Option.some.injEq, List.cons.injEq] at ha
  cases a
  cases b
  simp_all

theorem Log.Adds.eq {before after : KeySpace} {a b : LogEvent} (ha : Adds before after a)
    (hb : Adds before after b) : a = b := by
  have hid : a.id = b.id := by
    by_contra hne
    have hnone := (hb.others a.id hne).trans ha.free.1
    rw [ha.entry] at hnone
    cases hnone
  exact Has.eq ha.entry hb.entry hid

theorem Session.enters_of_adds {id : EventId} {payload : Bytes}
    (hkind : Kind.isItem event.kind = true)
    (hpayload : (Envelope.wrap item event).encode = .ok payload)
    (hadds : Log.Adds s.keys t.keys ⟨event.kind, id, payload⟩) (hlogs : s.Logs item.Owns t) :
    s.Enters t (some ⟨item, event⟩) := by
  rcases hlogs with hwithin | ⟨e, howns, hputs⟩
  · have hsame := hwithin.frame (Key.not_offLog_log id)
    rw [hadds.entry, hadds.free.1] at hsame
    cases hsame
  · -- the one call that is made has put the envelope
    obtain rfl := hadds.eq hputs.adds
    have hreads : LogEvent.itemEvent ⟨event.kind, id, payload⟩ =
        .ok ((Envelope.wrap item event).unwrap event.kind id) :=
      LogEvent.itemEvent_of_encode hpayload
    exact .event ⟨hkind, hreads, howns⟩ hputs

theorem Item.Extends.enters {slot : Nat} {id : EventId} (hkind : Kind.isItem event.kind = true)
    (h : Extends item slot { event with id := id } s.keys t.keys) (hlogs : s.Logs item.Owns t) :
    s.Enters t (some ⟨item, event⟩) := by
  obtain ⟨payload, hpayload, hadds⟩ := h.adds
  exact Session.enters_of_adds hkind hpayload hadds hlogs

namespace Op

variable {op : Op} {reply : Reply}

theorem logs_of_item? (hready : op.Ready s.keys) (hitem : op.item? = some item)
    (hrun : op.run s = .ok reply t) : s.Logs item.Owns t := by
  have hlogs := logs (s := s) hready fun p time event heq => by
    rw [heq] at hitem
    cases hitem
  rw [Txn.leaves_of_ok hrun] at hlogs
  exact hlogs.mono fun id hid => hid item hitem

/-- An operation that succeeds enters the item event that it appends, and no other. -/
theorem enters (hkinds : op.KeepsKinds) (hready : op.Ready s.keys)
    (hrun : op.run s = .ok reply t) : s.Enters t (op.itemEvent? s.keys) := by
  have hlogs : ∀ {item : ItemId}, op.item? = some item → s.Logs item.Owns t :=
    fun hitem => logs_of_item? hready hitem hrun
  cases done hready rfl hrun with
  | create hcreate =>
    obtain ⟨-, id, h⟩ := Item.create_extends hcreate
    exact h.enters rfl (hlogs rfl)
  | put hput =>
    obtain ⟨-, id, h⟩ := Item.put_extends hput
    exact h.enters hkinds (hlogs rfl)
  | addAlias hadd =>
    obtain ⟨slot, -, id, h⟩ := Item.addAlias_extends hadd
    exact h.enters rfl (hlogs rfl)
  | removeAlias hremove =>
    obtain ⟨slot, -, id, h⟩ := Item.removeAlias_extends hremove
    exact h.enters rfl (hlogs rfl)
  | delete hdelete =>
    obtain ⟨-, slot, id, payload, -, hpayload, hadds⟩ := Item.delete_spec hdelete
    exact Session.enters_of_adds rfl hpayload hadds (hlogs rfl)
  | sync hsync =>
    exact .nothing (((Item.silent_sync _ _ _).of_ok hsync).same_log Key.not_offLog_log)
  | found hthere hsame =>
    rw [itemEvent?, hthere, hsame]
    exact .nothing fun id => rfl
  | ensure hthere hcreate =>
    obtain ⟨-, id, h⟩ := Item.create_extends hcreate
    rw [itemEvent?, hthere]
    exact h.enters rfl (hlogs rfl)
  | @mutate m event slot hevent hput =>
    obtain ⟨-, id, h⟩ := Item.putNext_extends hput
    have hkind : Kind.isItem event.kind = true := by
      rw [Change.kind_of_toEvent hevent]
      rfl
    rw [itemEvent?, hevent]
    exact h.enters hkind (hlogs rfl)
  | @log p event id hput =>
    have hmark : Kind.isItem event.mark = false := hkinds
    exact .other (e := { event with id := id }) hmark (Log.put_entered hput).adds
  | @logAt p time event id hput =>
    have hmark : Kind.isItem event.mark = false := hkinds
    exact .other (e := { event with id := id }) hmark (Log.putAt_adds hput)

end Op

/-! ## The log of a run -/

namespace Log

variable {before after : KeySpace} {a b : LogEvent}

theorem Same.has_iff (h : Same before after) : Has after a ↔ Has before a := by
  rw [Has, Has, h a.id]

theorem Adds.has_iff (h : Adds before after e) : Has after a ↔ a = e ∨ Has before a := by
  constructor
  · intro ha
    by_cases hid : a.id = e.id
    · exact .inl (ha.eq h.entry hid)
    · exact .inr ((h.others a.id hid).symm.trans ha)
  · rintro (rfl | ha)
    · exact h.entry
    · have hid : a.id ≠ e.id := by
        intro heq
        have hnone := h.free.1
        rw [← heq, ha] at hnone
        cases hnone
      exact (h.others a.id hid).trans ha

end Log

namespace Run

/-- The entries of the item events that a run has appended, in turn. The log has no others of
items, and those of a partition stand in this order. -/
structure Filed (trace : List Step) (s : Session) (entries : List LogEvent) : Prop where
  events : List.Forall₂ LogEvent.StandsFor entries (itemEvents trace)
  mem : ∀ e, e ∈ entries ↔ Log.Has s.keys e ∧ Kind.isItem e.mark = true
  order : ∀ p, Ascending ((entries.filter fun e => e.id.partition = p).map LogEvent.id) s
  marked : ∀ id, s.keys.stored? (Key.log id) ≠ some []

namespace Filed

variable {clock : Clock} {trace : List Step} {entries : List LogEvent} {op : Op} {reply : Reply}

theorem start (clock : Clock) : Filed [] (.start clock) [] := by
  have hnone : ∀ id, (Session.start clock).keys.stored? (Key.log id) = none :=
    fun id => KeySpace.stored?_empty _
  refine ⟨.nil, fun e => ?_, fun p => .nil _, fun id => ?_⟩
  · simp [Log.Has, hnone]
  · simp [hnone]

theorem later (h : Filed trace s entries) (hclock : s.clock.reading ≤ t.clock.reading)
    (hlog : s.Retains t)
    (hhas : ∀ e, Kind.isItem e.mark = true → (Log.Has t.keys e ↔ Log.Has s.keys e))
    (hmarked : ∀ id, t.keys.stored? (Key.log id) ≠ some []) : Filed trace t entries := by
  refine ⟨h.events, fun e => ?_, fun p => (h.order p).later hclock hlog, hmarked⟩
  rw [h.mem]
  exact and_congr_left fun hmark => (hhas e hmark).symm

theorem silent {step : Step} (h : Filed trace s entries) (hstep : step.itemEvent? = none) :
    Filed (trace ++ [step]) s entries := by
  refine ⟨?_, h.mem, h.order, h.marked⟩
  simpa [itemEvents_snoc, hstep] using h.events

theorem marked_of_adds (h : Filed trace s entries) (hadds : Log.Adds s.keys t.keys e)
    (id : EventId) : t.keys.stored? (Key.log id) ≠ some [] := by
  by_cases hid : id = e.id
  · simp [hid, hadds.entry]
  · rw [hadds.others id hid]
    exact h.marked id

/-- The entry of a new event comes last in its partition, and nothing changes in the others. -/
theorem append {step : Step} (h : Filed trace s entries) (hclock : Monotone s.clock.readings)
    {F : Bytes → Prop} (hwithin : s.Within F t) (hfound : e.StandsFor found)
    (hputs : s.Puts e t) (hstep : step.itemEvent? = some found) :
    Filed (trace ++ [step]) t (entries ++ [e]) := by
  refine ⟨?_, fun a => ?_, fun p => ?_, h.marked_of_adds hputs.adds⟩
  · rw [itemEvents_snoc, hstep]
    exact List.rel_append h.events (.cons hfound .nil)
  · have hmark : a = e → Kind.isItem a.mark = true := fun heq => heq ▸ hfound.isItem
    rw [List.mem_append, List.mem_singleton, h.mem, hputs.adds.has_iff]
    tauto
  · by_cases hp : e.id.partition = p
    · subst hp
      have hids : ∀ id ∈ (entries.filter fun a => a.id.partition = e.id.partition).map
          LogEvent.id, id.partition = e.id.partition := by
        intro id hid
        obtain ⟨a, ha, rfl⟩ := List.mem_map.1 hid
        simpa using (List.mem_filter.1 ha).2
      simpa using (h.order _).puts hclock hputs hids
    · simpa [hp] using (h.order p).within hclock hwithin

theorem step (h : Filed trace s entries) (hclock : Monotone s.clock.readings)
    (hkinds : op.KeepsKinds) (hready : op.Ready s.keys) (hop : op.run s = .ok reply t) :
    ∃ entries, Filed (trace ++ [⟨op, reply, s.keys, t.keys⟩]) t entries := by
  have hwithin := (Txn.Keeps.writes_of_ok op.writes hop).within
  have hreading := hwithin.reading_le hclock
  have henters := Op.enters hkinds hready hop
  cases hevent : op.itemEvent? s.keys with
  | none =>
    have hstep : (Step.mk op reply s.keys t.keys).itemEvent? = none := by
      simp [Step.itemEvent?, hevent]
    rw [hevent] at henters
    cases henters with
    | nothing hsame =>
      have hhas : ∀ e, Log.Has t.keys e ↔ Log.Has s.keys e := fun e => hsame.has_iff
      have hmarked : ∀ id, t.keys.stored? (Key.log id) ≠ some [] := fun id => by
        rw [hsame id]
        exact h.marked id
      exact ⟨entries, (h.later hreading hwithin.retains (fun e _ => hhas e) hmarked).silent hstep⟩
    | @other e hmark hadds =>
      have hhas : ∀ a, Kind.isItem a.mark = true → (Log.Has t.keys a ↔ Log.Has s.keys a) := by
        intro a ha
        have hne : a ≠ e := by
          rintro rfl
          simp [hmark] at ha
        rw [hadds.has_iff, or_iff_right hne]
      exact ⟨entries,
        (h.later hreading hwithin.retains hhas (h.marked_of_adds hadds)).silent hstep⟩
  | some found =>
    rw [hevent] at henters
    cases henters with
    | @event e _ hfound hputs =>
      have hstep : (Step.mk op reply s.keys t.keys).itemEvent? = some (found.under e.id) := by
        simp [Step.itemEvent?, hevent, Step.newId_eq hputs.adds]
      exact ⟨entries ++ [e], h.append hclock hwithin hfound hputs hstep⟩

end Filed

namespace Reached

variable {clock : Clock} {trace : List Step}

theorem readings (h : Reached clock trace s) : s.clock.readings = clock.readings := by
  induction h with
  | start => rfl
  | abort h _ hreadings _ ih => rw [hreadings, ih]
  | @step trace s t op reply h hready hop ih =>
    rw [(Txn.Keeps.writes_of_ok op.writes hop).within.readings, ih]

theorem filed (h : Reached clock trace s) (hclock : Monotone clock.readings)
    (hkinds : ∀ step ∈ trace, step.op.KeepsKinds) : ∃ entries, Filed trace s entries := by
  induction h with
  | start => exact ⟨[], .start clock⟩
  | @abort trace s t h hkeys hreadings htaken ih =>
    obtain ⟨entries, hentries⟩ := ih hkinds
    have hreading := Session.reading_le (h.readings ▸ hclock) hreadings htaken
    refine ⟨entries, hentries.later hreading ?_ ?_ ?_⟩
    · exact fun id hid => hkeys ▸ hid
    · exact fun e _ => hkeys ▸ Iff.rfl
    · exact hkeys ▸ hentries.marked
  | step h hready hop ih =>
    obtain ⟨entries, hentries⟩ := ih fun step hstep => hkinds step (List.mem_append_left _ hstep)
    have hlast := hkinds _ (List.mem_append_right _ List.mem_cons_self)
    exact hentries.step (h.readings ▸ hclock) hlast hready hop

end Reached
end Run
end Chronicle
