import Mathlib
import Chronicle.Proofs.AliasTable
import Chronicle.Proofs.EffectTakeover
import Chronicle.Proofs.LogOrder

/-!
# Effects in the log of a run

The log of a run of operations on items holds the effects that the run has had on its directory,
apart from the slots of events that no item has, which a takeover passes over. Partition by
partition, each of them is admitted after those before it.
-/
namespace Chronicle

/-! ## Operations on items -/

/-- An operation that appends one event to an item of the caller. An event that is put does not look
like one of the lifecycle. -/
def Op.OnItem : Op → Prop
  | .put _ event => ∀ what, event.isLifecycle what = false
  | .create _ | .addAlias _ _ | .removeAlias _ _ | .delete _ => True
  | .sync _ _ _ _ | .ensure | .mutate _ | .log _ _ | .logAt _ _ _ => False

def Op.effect? : Op → Option Effect
  | .create item => some (.create item)
  | .put item _ => some (.count item)
  | .addAlias item x => some (.link item x)
  | .removeAlias item x => some (.unlink item x)
  | .delete item => some (.delete item)
  | .sync _ _ _ _ | .ensure | .mutate _ | .log _ _ | .logAt _ _ _ => none

/-- The entry stands for the effect. A takeover passes over an entry of a kind that no item has, and
then the replica lacks a slot and nothing else. -/
structure LogEvent.Records (e : LogEvent) (f : Effect) : Prop where
  tag : f.item.tag = e.id.partition.toUInt16
  effect : Kind.isItem e.mark = true → e.effect? = some f
  foreign : Kind.isItem e.mark = false → f = .count f.item

variable {P : ItemId → Prop} {s t : Session} {d : Directory} {f : Effect} {op : Op} {e : LogEvent}

theorem LogEvent.effect?_foreign (hkind : Kind.isItem e.mark = false) : e.effect? = none := by
  rw [effect?, hkind]
  rfl

theorem LogEvent.Records.of_effect? {g : Effect} (h : e.Records f) (hg : e.effect? = some g) :
    f = g := by
  rw [h.effect (effect?_eq_some hg).1] at hg
  exact Option.some.inj hg

theorem Directory.next_eq_take (h : op.effect? = some f) : d.next op = d.take f := by
  cases op <;> cases h <;> rfl

theorem Op.item?_of_effect? (h : op.effect? = some f) : op.item? = some f.item := by
  cases op <;> cases h <;> rfl

theorem Op.effect?_eq_link {a x : ItemId} : op.effect? = some (.link a x) ↔ op = .addAlias a x := by
  constructor
  · intro h
    cases op <;> cases h
    rfl
  · rintro rfl
    rfl

theorem ItemEvent.effect?_of_plain {found : ItemEvent}
    (hplain : ∀ what, found.event.isLifecycle what = false) :
    found.effect? = some (.count found.item) := by
  simp [effect?, hplain]

/-- An operation on an item carries out the event with its effect. -/
theorem Op.performs {reply : Reply} (hop : op.OnItem) (hrun : op.run s = .ok reply t) :
    ∃ (found : ItemEvent) (f : Effect), op.effect? = some f ∧ found.effect? = some f ∧
      Item.perform found.item found.event s = .ok () t ∧
      ∀ a x, f = .unlink a x → Item.resolve s.keys x = .ok a := by
  have hready : op.Ready s.keys := by cases op <;> trivial
  cases done hready rfl hrun with
  | @create item hcreate =>
    exact ⟨⟨item, .lifecycle .created []⟩, _, rfl, rfl, Item.perform_of_create hcreate, nofun⟩
  | @put item event slot hput =>
    have hplain : ∀ what, event.isLifecycle what = false := hop
    exact ⟨⟨item, event⟩, _, rfl, ItemEvent.effect?_of_plain hplain,
      Item.perform_of_putNext hplain (Item.put_eq_ok.mp hput).2, nofun⟩
  | @addAlias item x hadd =>
    refine ⟨⟨item, .lifecycle .aliased x.encode⟩, _, rfl, ?_, Item.perform_of_addAlias hadd, nofun⟩
    exact congrArg (fun found => found.toOption.map (Effect.link item)) (ItemId.decode_encode x)
  | @removeAlias item x hremove =>
    refine ⟨⟨item, .lifecycle .unaliased x.encode⟩, _, rfl, ?_, Item.perform_of_removeAlias hremove,
      fun a y heq => ?_⟩
    · exact congrArg (fun found => found.toOption.map (Effect.unlink item)) (ItemId.decode_encode x)
    · cases heq
      obtain ⟨-, -, hresolve, -⟩ := Item.removeAlias_eq_ok hremove
      exact hresolve
  | @delete item hdelete =>
    exact ⟨⟨item, .lifecycle .deleted []⟩, _, rfl, rfl, Item.perform_of_delete hdelete, nofun⟩
  | sync | found | ensure | mutate | log | logAt => exact hop.elim

/-- What an operation on an item does to the directory has been admitted there, and is on record. -/
theorem Op.entered {reply : Reply} (h : d.Kept P s.keys) (hP : Separate P)
    (hitem : ∀ a, op.item? = some a → P a) (hop : op.OnItem) (hrun : op.run s = .ok reply t) :
    ∃ (e : LogEvent) (f : Effect), e.Entered s t ∧ e.Records f ∧ op.effect? = some f ∧
      d.Admits f := by
  obtain ⟨found, f, hf, hfound, hperform, hunlink⟩ := performs hop hrun
  obtain ⟨e, hentered, hmark, hdecoded, htag, -⟩ := Item.perform_entered hperform
  have hsame : f.item = found.item := (ItemEvent.effect?_eq_some hfound).1
  refine ⟨e, f, hentered, ⟨hsame ▸ htag, fun hkind => ?_, fun hkind => ?_⟩, hf, ?_⟩
  · rw [LogEvent.effect?, if_pos hkind, hdecoded]
    exact hfound
  · rw [hmark] at hkind
    rw [ItemEvent.effect?_of_plain (Event.isLifecycle_of_foreign hkind)] at hfound
    rw [hsame]
    exact (Option.some.inj hfound).symm
  · refine h.shown.admits_of_perform hP (hitem _ (item?_of_effect? hf)) hfound ?_ hperform
    exact fun a x heq => h.consistent.points x a (h.shown.resolve_iff.mp (hunlink a x heq))

/-! ## The effects of a run -/

namespace Run

variable {clock : Clock} {trace : List Step} {step : Step}

/-- The effects that a takeover of the log has, in the order of the run. -/
def effects (trace : List Step) : List Effect :=
  (trace.filterMap Step.added).filterMap LogEvent.effect?

theorem effects_snoc (h : step.added = some e) :
    effects (trace ++ [step]) = effects trace ++ e.effect?.toList := by
  rw [effects, List.filterMap_append, List.filterMap_cons_some h, List.filterMap_append]
  cases heffect : e.effect? with
  | none => rw [List.filterMap_nil, List.filterMap_cons_none heffect]; rfl
  | some f => rw [List.filterMap_nil, List.filterMap_cons_some heffect]; rfl

theorem appended_eq_filter (p : UInt8) (trace : List Step) :
    appended p trace = (trace.filterMap Step.added).filter fun e => e.id.partition = p := by
  rw [appended, stepsOf, List.filterMap_filter, List.filter_filterMap]
  refine List.filterMap_congr fun step _ => ?_
  unfold Step.adds
  cases step.added with
  | none => rfl
  | some e => simp [Option.filter]

/-- The log of a run holds what the run has done to its directory. -/
structure Recorded (P : ItemId → Prop) (clock : Clock) (trace : List Step) (s : Session) : Prop where
  logging : Logging clock trace s
  proper : Effect.Proper (effects trace)
  behind : (Directory.replay (effects trace)).Le (directory trace)
  records : ∀ e ∈ trace.filterMap Step.added, ∃ f, e.Records f ∧ P f.item
  links : ∀ a x, .link a x ∈ effects trace ↔ ∃ step ∈ trace, step.op = .addAlias a x

/-- One more operation is on record. -/
theorem Recorded.enter (h : Recorded P clock trace s) (hlogging : Logging clock (trace ++ [step]) t)
    (hadded : step.added = some e) (hrecords : e.Records f) (hf : step.op.effect? = some f)
    (ha : P f.item) (hadmits : (directory trace).Admits f) :
    Recorded P clock (trace ++ [step]) t := by
  have hnext : directory (trace ++ [step]) = (directory trace).take f := by
    rw [directory_snoc, Directory.next_eq_take hf]
  have hrecords_all : ∀ e ∈ (trace ++ [step]).filterMap Step.added, ∃ f, e.Records f ∧ P f.item := by
    intro other hother
    rw [List.filterMap_append, List.filterMap_cons_some hadded, List.filterMap_nil] at hother
    rcases List.mem_append.mp hother with hold | hnew
    · exact h.records other hold
    · rw [List.mem_singleton.mp hnew]
      exact ⟨f, hrecords, ha⟩
  have hlinks : ∀ a x, (∃ other ∈ trace ++ [step], other.op = .addAlias a x) ↔
      .link a x ∈ effects trace ∨ f = .link a x := by
    intro a x
    have hlast : step.op = .addAlias a x ↔ f = .link a x := by
      rw [← Op.effect?_eq_link, hf, Option.some.injEq]
    rw [h.links, ← hlast]
    simp [or_and_right, exists_or]
  cases hkind : Kind.isItem e.mark with
  | true =>
    have heffects : effects (trace ++ [step]) = effects trace ++ [f] := by
      rw [effects_snoc hadded, hrecords.effect hkind]
      rfl
    refine ⟨hlogging, ?_, ?_, hrecords_all, fun a x => ?_⟩
    · rw [heffects, Effect.proper_snoc]
      exact ⟨h.proper, h.behind.admits hadmits⟩
    · rw [heffects, Directory.replay_snoc, hnext]
      exact h.behind.take
    · rw [heffects, hlinks, List.mem_append, List.mem_singleton, eq_comm (b := f)]
  | false =>
    have heffects : effects (trace ++ [step]) = effects trace := by
      rw [effects_snoc hadded, LogEvent.effect?_foreign hkind]
      exact List.append_nil _
    have hcount := hrecords.foreign hkind
    refine ⟨hlogging, ?_, ?_, hrecords_all, fun a x => ?_⟩
    · rw [heffects]
      exact h.proper
    · rw [heffects, hnext, hcount]
      exact h.behind.count
    · have hnot : f ≠ .link a x := by
        rw [hcount]
        nofun
      rw [heffects, hlinks, or_iff_left hnot]

theorem Reached.recorded (h : Reached clock trace s) (hP : Separate P)
    (hitem : ∀ item, Items trace item → P item) (hops : ∀ step ∈ trace, step.op.OnItem) :
    Recorded P clock trace s := by
  induction h with
  | start => exact ⟨.start, Effect.proper_nil, .empty, nofun, fun a x => by simp [effects]⟩
  | abort h hkeys hreadings htaken ih =>
    have hbefore := ih hitem hops
    exact { hbefore with logging := hbefore.logging.abort hkeys hreadings htaken }
  | @step trace s t op reply h hready hop ih =>
    have hitem_before : ∀ item, Items trace item → P item := fun item ⟨other, hother, hsome⟩ =>
      hitem item ⟨other, List.mem_append_left _ hother, hsome⟩
    have hbefore := ih hitem_before fun step hstep => hops step (List.mem_append_left _ hstep)
    have hop_item : ∀ a, op.item? = some a → P a := fun a ha =>
      hitem a ⟨_, List.mem_append_right _ List.mem_cons_self, ha⟩
    obtain ⟨e, f, hentered, hrecords, hf, hadmits⟩ := Op.entered (h.kept hP hitem_before).1 hP
      hop_item (hops _ (List.mem_append_right _ List.mem_cons_self)) hop
    exact hbefore.enter (hbefore.logging.enter op reply hentered)
      (Step.added_eq op reply hentered.adds) hrecords hf (hop_item _ (Op.item?_of_effect? hf)) hadmits

namespace Recorded

variable (h : Recorded P clock trace s)

include h

/-- The log of a partition holds the effects on its items. -/
theorem effects_appended (p : UInt8) : (appended p trace).filterMap LogEvent.effect? =
    Effect.ofTag p.toUInt16 (effects trace) := by
  rw [appended_eq_filter, List.filterMap_filter, Effect.ofTag, effects, List.filter_filterMap]
  refine List.filterMap_congr fun e he => ?_
  obtain ⟨f, hrecords, -⟩ := h.records e he
  cases heffect : e.effect? with
  | none => simp
  | some g =>
    have htag : g.item.tag = e.id.partition.toUInt16 := hrecords.of_effect? heffect ▸ hrecords.tag
    simp [Option.filter, htag, UInt8.toUInt16_inj]

theorem exists_partition (hf : f ∈ effects trace) : P f.item ∧ ∃ p : UInt8, f.item.tag = p.toUInt16 := by
  obtain ⟨e, he, heffect⟩ := List.mem_filterMap.mp hf
  obtain ⟨g, hrecords, hg⟩ := h.records e he
  obtain rfl := hrecords.of_effect? heffect
  exact ⟨hg, _, hrecords.tag⟩

/-- Every event of an item has its effect. -/
theorem exists_effect {p : UInt8} (he : e ∈ appended p trace) (hkind : Kind.isItem e.mark = true) :
    ∃ f, e.effect? = some f ∧ P f.item ∧ f.item.tag = p.toUInt16 := by
  rw [appended_eq_filter, List.mem_filter, decide_eq_true_eq] at he
  obtain ⟨f, hrecords, hf⟩ := h.records e he.1
  exact ⟨f, hrecords.effect hkind, hf, he.2 ▸ hrecords.tag⟩

end Recorded

end Run
end Chronicle
