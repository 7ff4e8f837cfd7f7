import Mathlib
import Chronicle.Proofs.LogPages
import Chronicle.Proofs.Streams
import Chronicle.Proofs.Takeover

/-!
# The order of a log

Where every step of a store enters one event into the log, or none, and the clock does not go back,
the events of a partition stand in the log in the order in which they were entered.
-/
namespace Chronicle

variable {p : UInt8} {e : LogEvent} {s t : Session} {before after : KeySpace}

/-! ## Events of steps -/

/-- The entry that a step has added to the log, if it has added one. -/
def Step.added (step : Step) : Option LogEvent :=
  if step.before.stored? (Key.log step.newId) = none then
    (Log.get step.after step.newId).toOption
  else none

theorem Step.added_eq (op : Op) (reply : Reply) (h : Log.Adds before after e) :
    (Step.mk op reply before after).added = some e := by
  have hget : after.get (Key.log e.id) = .ok (some ⟨e.mark, e.payload⟩) :=
    KeySpace.get_eq_some (Key.log_ne_nil _) h.entry
  rw [added, newId_eq h, if_pos h.free.1, Log.get, hget]
  rfl

theorem Step.added_of_same (op : Op) (reply : Reply) (keys : KeySpace) :
    (Step.mk op reply keys keys).added = none := by
  unfold added
  generalize (Step.mk op reply keys keys).newId = id
  split_ifs with hstored
  · rw [Log.get, KeySpace.get_eq_none (Key.log_ne_nil _) hstored]
    rfl
  · rfl

/-- Whether the step has added to the log of the partition. -/
def Step.adds (p : UInt8) (step : Step) : Bool := step.added.any fun e => e.id.partition = p

namespace Run

/-- The steps that have added to the log of a partition. -/
def stepsOf (p : UInt8) (trace : List Step) : List Step := trace.filter (Step.adds p)

/-- The events that have been appended to a partition, in turn. -/
def appended (p : UInt8) (trace : List Step) : List LogEvent :=
  (stepsOf p trace).filterMap Step.added

variable {trace : List Step} {step : Step}

theorem stepsOf_snoc_of_ne (h : ∀ e, step.added = some e → e.id.partition ≠ p) :
    stepsOf p (trace ++ [step]) = stepsOf p trace := by
  have hadds : Step.adds p step = false := by
    unfold Step.adds
    cases hadded : step.added with
    | none => rfl
    | some e => simpa using h e hadded
  rw [stepsOf, List.filter_append, List.filter_cons_of_neg (by simp [hadds]), List.filter_nil,
    List.append_nil, stepsOf]

theorem stepsOf_snoc (h : step.added = some e) :
    stepsOf e.id.partition (trace ++ [step]) = stepsOf e.id.partition trace ++ [step] := by
  have hadds : Step.adds e.id.partition step = true := by simp [Step.adds, h]
  rw [stepsOf, List.filter_append, List.filter_cons_of_pos hadds, List.filter_nil, stepsOf]

theorem stepsOf_idle (op : Op) (reply : Reply) (keys : KeySpace) :
    stepsOf p (trace ++ [⟨op, reply, keys, keys⟩]) = stepsOf p trace := by
  refine stepsOf_snoc_of_ne fun e he => ?_
  rw [Step.added_of_same] at he
  cases he

theorem appended_snoc_of_ne (h : ∀ e, step.added = some e → e.id.partition ≠ p) :
    appended p (trace ++ [step]) = appended p trace := by
  rw [appended, stepsOf_snoc_of_ne h, appended]

theorem appended_snoc (h : step.added = some e) :
    appended e.id.partition (trace ++ [step]) = appended e.id.partition trace ++ [e] := by
  rw [appended, stepsOf_snoc h, List.filterMap_append, List.filterMap_cons_some h,
    List.filterMap_nil, appended]

theorem partition_of_mem_appended (h : e ∈ appended p trace) : e.id.partition = p := by
  obtain ⟨step, hstep, hadded⟩ := List.mem_filterMap.mp h
  have hadds := (List.mem_filter.mp hstep).2
  rw [Step.adds, hadded, Option.any_some] at hadds
  exact of_decide_eq_true hadds

/-- Every step of a partition has added one event. -/
theorem filterMap_stepsOf {steps : List Step} (h : ∀ step ∈ steps, step ∈ stepsOf p trace)
    (n : Nat) : (steps.take n).filterMap Step.added = (steps.filterMap Step.added).take n ∧
      (steps.filterMap Step.added).length = steps.length := by
  induction steps generalizing n with
  | nil => simp
  | cons step steps ih =>
    have hrest := ih fun other hother => h other (List.mem_cons_of_mem _ hother)
    have hadds := (List.mem_filter.mp (h step List.mem_cons_self)).2
    rw [Step.adds, Option.any_eq_true] at hadds
    obtain ⟨e, hadded, -⟩ := hadds
    rw [List.filterMap_cons_some hadded, List.length_cons, List.length_cons, (hrest 0).2]
    cases n with
    | zero => exact ⟨rfl, rfl⟩
    | succ n =>
      rw [List.take_succ_cons, List.take_succ_cons, List.filterMap_cons_some hadded, (hrest n).1]
      exact ⟨rfl, rfl⟩

theorem length_appended (p : UInt8) (trace : List Step) :
    (appended p trace).length = (stepsOf p trace).length :=
  (filterMap_stepsOf (fun _ h => h) 0).2

theorem appended_take (p : UInt8) (trace : List Step) (n : Nat) :
    ((stepsOf p trace).take n).filterMap Step.added = (appended p trace).take n :=
  (filterMap_stepsOf (fun _ h => h) n).1

theorem appended_drop_take (p : UInt8) (trace : List Step) (n size : Nat) :
    (((stepsOf p trace).drop n).take size).filterMap Step.added =
      ((appended p trace).drop n).take size := by
  have hdrop : ((stepsOf p trace).drop n).filterMap Step.added = (appended p trace).drop n := by
    refine List.append_cancel_left (?_ : (appended p trace).take n ++ _ = _ ++ _)
    rw [List.take_append_drop, ← appended_take, ← List.filterMap_append, List.take_append_drop,
      appended]
  have hmem : ∀ step ∈ (stepsOf p trace).drop n, step ∈ stepsOf p trace :=
    fun _ h => List.mem_of_mem_drop h
  rw [(filterMap_stepsOf hmem size).1, hdrop]

end Run

/-! ## The order of entry -/

theorem Run.monotone_steady (start step : Nat) : Monotone (Clock.steady start step).readings :=
  fun _ _ h => Nat.add_le_add_left (Nat.mul_le_mul_right step h) start

theorem Session.reading_le (hclock : Monotone s.clock.readings)
    (hreadings : t.clock.readings = s.clock.readings) (htaken : s.clock.taken ≤ t.clock.taken) :
    s.clock.reading ≤ t.clock.reading := by
  rw [Clock.reading, Clock.reading, hreadings]
  exact hclock htaken

/-- A session with the steps that have led to it, each of which has entered an event into the log,
or nothing. -/
inductive Logging (clock : Clock) : List Step → Session → Prop
  | start : Logging clock [] (Session.start clock)
  | abort {trace : List Step} {s t : Session} (h : Logging clock trace s) (hkeys : t.keys = s.keys)
      (hreadings : t.clock.readings = s.clock.readings) (htaken : s.clock.taken ≤ t.clock.taken) :
      Logging clock trace t
  | idle {trace : List Step} {s : Session} (op : Op) (reply : Reply) (h : Logging clock trace s) :
      Logging clock (trace ++ [⟨op, reply, s.keys, s.keys⟩]) s
  | enter {trace : List Step} {s t : Session} {e : LogEvent} (op : Op) (reply : Reply)
      (h : Logging clock trace s) (hentered : e.Entered s t) :
      Logging clock (trace ++ [⟨op, reply, s.keys, t.keys⟩]) t

namespace Logging

variable {clock : Clock} {trace : List Step}

theorem readings (h : Logging clock trace s) : s.clock.readings = clock.readings := by
  induction h with
  | start => rfl
  | abort h _ hreadings _ ih => rw [hreadings, ih]
  | idle op reply h ih => exact ih
  | enter op reply h hentered ih => rw [hentered.clock]; exact ih

/-- The log of a partition is what has been appended to it. -/
theorem log_agree (h : Logging clock trace s) (p : UInt8) :
    (KeySpace.empty.withLog (Run.appended p trace)).Agree (Key.partition p <+: ·) s.keys := by
  induction h with
  | start => exact .refl _
  | abort h hkeys _ _ ih => rw [hkeys]; exact ih
  | @idle trace s op reply h ih =>
    rw [Run.appended, Run.stepsOf_idle]
    exact ih
  | @enter trace s t e op reply h hentered ih =>
    have hadded := Step.added_eq op reply hentered.adds
    have hlog : (s.keys.withLog [e]).Agree (Key.partition p <+: ·) t.keys := by
      rintro key ⟨rest, rfl⟩
      exact hentered.log _ fun hoff => hoff rfl
    by_cases hp : e.id.partition = p
    · subst hp
      rw [Run.appended_snoc hadded, KeySpace.withLog_append]
      exact (ih.insert _ _).trans hlog
    · rw [Run.appended_snoc_of_ne]
      · refine (ih.insert_right (fun hprefix => hp ?_) _).trans hlog
        exact Key.partition_prefix_log.mp hprefix
      · intro e' he'
        rw [hadded, Option.some.injEq] at he'
        rwa [← he']

theorem stored?_of_mem_appended (h : Logging clock trace s)
    (he : e ∈ Run.appended p trace) : s.keys.stored? (Key.log e.id) ≠ none := by
  have hprefix := Key.partition_prefix_log.mpr (Run.partition_of_mem_appended he)
  rw [← h.log_agree p _ hprefix]
  exact KeySpace.stored?_withLog_ne_none _ (.inr ⟨e, he, rfl⟩)

/-- No event lies after the time that the clock shows, and at its own time no index before that of
an event is free. -/
structure InOrder (events : List LogEvent) (s : Session) : Prop where
  sorted : events.Pairwise fun a b => a.id.Before b.id
  times : ∀ e ∈ events, e.id.timestamp.toNat ≤ s.clock.reading
  indexes : ∀ e ∈ events, ∀ j < e.id.index,
    s.keys.stored? (Key.log ⟨e.id.partition, e.id.timestamp, j⟩) ≠ none

/-- The log has moved on. -/
theorem InOrder.later {events : List LogEvent} (h : InOrder events s)
    (hclock : s.clock.reading ≤ t.clock.reading) (hlog : ∀ id,
      s.keys.stored? (Key.log id) ≠ none → t.keys.stored? (Key.log id) ≠ none) : InOrder events t :=
  ⟨h.sorted, fun e he => (h.times e he).trans hclock, fun e he j hj => hlog _ (h.indexes e he j hj)⟩

/-- A new event comes last: its time is that of the clock, and the indexes before its own are
taken, but those after them are not. -/
theorem InOrder.append {events : List LogEvent} (h : InOrder events s) (hentered : e.Entered s t)
    (hclock : s.clock.reading ≤ t.clock.reading)
    (hpartition : ∀ a ∈ events, a.id.partition = e.id.partition)
    (hstored : ∀ a ∈ events, s.keys.stored? (Key.log a.id) ≠ none) :
    InOrder (events ++ [e]) t := by
  have htime : e.id.timestamp.toNat = s.clock.reading := by
    rw [hentered.time, Clock.toNat_ofNat hentered.limit]
  have hlog : ∀ id, s.keys.stored? (Key.log id) ≠ none → t.keys.stored? (Key.log id) ≠ none :=
    fun id => hentered.adds.stored?_ne_none
  obtain ⟨hfree, hbelow⟩ := hentered.adds.free
  have hlater := h.later hclock hlog
  have hbefore : ∀ a ∈ events, a.id.Before e.id := by
    intro a ha
    have hpart := hpartition a ha
    rw [EventId.before_iff hpart]
    rcases Nat.lt_or_eq_of_le (htime ▸ h.times a ha) with hlt | heq
    · exact .inl (UInt64.lt_iff_toNat_lt.mpr hlt)
    · -- at the same time the free index cannot lie before the index of `a`, nor be that
      have heq := UInt64.toNat_inj.mp heq
      refine .inr ⟨heq, ?_⟩
      by_contra hge
      rcases UInt16.lt_or_eq_of_le (UInt16.not_lt.mp hge) with hlt | hindex
      · have htaken := h.indexes a ha _ hlt
        rw [hpart, heq] at htaken
        exact htaken hfree
      · have hid : e.id = ⟨a.id.partition, a.id.timestamp, a.id.index⟩ := by
          rw [hpart, heq, ← hindex]
        rw [hid] at hfree
        exact hstored a ha hfree
  refine ⟨List.pairwise_append.mpr ⟨h.sorted, List.pairwise_singleton _ _, fun a ha b hb => ?_⟩,
    fun a ha => ?_, fun a ha => ?_⟩
  · rw [List.mem_singleton.mp hb]
    exact hbefore a ha
  · rcases List.mem_append.mp ha with ha | ha
    · exact hlater.times a ha
    · rw [List.mem_singleton.mp ha]
      exact htime.le.trans hclock
  · rcases List.mem_append.mp ha with ha | ha
    · exact hlater.indexes a ha
    · rw [List.mem_singleton.mp ha]
      exact fun j hj => hlog _ (hbelow j hj)

theorem inOrder (h : Logging clock trace s) (hclock : Monotone clock.readings) (p : UInt8) :
    InOrder (Run.appended p trace) s := by
  induction h with
  | start => exact ⟨.nil, nofun, nofun⟩
  | abort h hkeys hreadings htaken ih =>
    refine ih.later (Session.reading_le (h.readings ▸ hclock) hreadings htaken) ?_
    rw [hkeys]
    exact fun _ h => h
  | idle op reply h ih =>
    rw [Run.appended, Run.stepsOf_idle]
    exact ih
  | @enter trace s t e op reply h hentered ih =>
    have hadded := Step.added_eq op reply hentered.adds
    have htick : s.clock.reading ≤ t.clock.reading := by
      rw [hentered.clock]
      exact (h.readings ▸ hclock) (Nat.le_succ s.clock.taken)
    by_cases hp : e.id.partition = p
    · subst hp
      rw [Run.appended_snoc hadded]
      exact ih.append hentered htick (fun a ha => Run.partition_of_mem_appended ha)
        fun a ha => h.stored?_of_mem_appended ha
    · rw [Run.appended_snoc_of_ne]
      · exact ih.later htick fun id => hentered.adds.stored?_ne_none
      · intro e' he'
        rw [hadded, Option.some.injEq] at he'
        rwa [← he']

end Logging

theorem KeySpace.stored?_withLog_iff {events : List LogEvent} {key stored : Bytes}
    (h : events.Pairwise fun a b => a.id.Before b.id) :
    (KeySpace.empty.withLog events).stored? key = some stored ↔
      (key, stored) ∈ events.map LogEvent.entry := by
  induction events using List.reverseRecOn with
  | nil => simp [withLog]
  | append_singleton events e ih =>
    obtain ⟨hevents, -, hbefore⟩ := List.pairwise_append.mp h
    rw [withLog_append, List.map_append, List.mem_append, ← ih hevents]
    show (insert _ (Key.log e.id) (e.mark :: e.payload)).stored? key = _ ↔ _
    rw [stored?_insert]
    split_ifs with heq
    · subst heq
      constructor
      · intro hstored
        exact .inr (List.mem_singleton.mpr (by rw [LogEvent.entry, ← Option.some.inj hstored]))
      · rintro (hstored | hmem)
        · obtain ⟨a, ha, hentry⟩ := List.mem_map.mp ((ih hevents).mp hstored)
          have hlt := hbefore a ha e List.mem_cons_self
          rw [Key.log_injective (Prod.mk.inj hentry).1] at hlt
          exact absurd hlt hlt.asymm
        · rw [(Prod.mk.inj (List.mem_singleton.mp hmem)).2]
    · constructor
      · exact .inl
      · rintro (hstored | hmem)
        · exact hstored
        · exact absurd (Prod.mk.inj (List.mem_singleton.mp hmem)).1.symm heq

namespace Logging

variable {clock : Clock} {trace : List Step}

theorem lists (h : Logging clock trace s) (hclock : Monotone clock.readings) (p : UInt8) :
    Log.Lists s.keys p (Run.appended p trace) := by
  have hsorted := (h.inOrder hclock p).sorted
  refine ⟨fun hprefix => ?_, hsorted, fun e he => Run.partition_of_mem_appended he⟩
  rw [← h.log_agree p _ hprefix]
  exact KeySpace.stored?_withLog_iff hsorted

end Logging

end Chronicle
