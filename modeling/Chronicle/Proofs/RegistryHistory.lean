import Mathlib
import Chronicle.Proofs.RegistryReading
import Chronicle.Proofs.Revisions

/-!
# The history of the registry

An event type is read at the first moment its revision exists, while the registry as it stands is
what the whole history has made of it. Numbers start over when an event type is created again, so
the two agree on a revision that is still there unless its event type or entity type has been
deleted since that moment.
-/
namespace Chronicle

/-! ## Histories -/

namespace Registry

variable {r r' : Registry} {before ms : List Mutation} {m : Mutation} {entity name : String}
  {number : Nat} {schema : Payload.Schema}

/-- What mutations make of a registry. -/
def replay (r : Registry) (ms : List Mutation) : Registry :=
  ms.foldl (fun r m => (m.change.apply r).1) r

theorem replay_append (r : Registry) (xs ys : List Mutation) :
    replay r (xs ++ ys) = replay (replay r xs) ys := List.foldl_append

/-- Each mutation is admitted by the registry that those before it have made. -/
def Admitted : Registry → List Mutation → Prop
  | _, [] => True
  | r, m :: ms => m.Admits r ∧ Admitted (m.change.apply r).1 ms

theorem admitted_append : Admitted r (before ++ ms) ↔
    Admitted r before ∧ Admitted (replay r before) ms := by
  induction before generalizing r with
  | nil => simp [Admitted, replay]
  | cons m before ih => simp only [List.cons_append, Admitted, ih, and_assoc]; rfl

theorem Named.replay (h : r.Named) (ms : List Mutation) : (replay r ms).Named := by
  induction ms generalizing r with
  | nil => exact h
  | cons m ms ih => exact ih (h.apply m.change)

/-- A revision stays as it is while nothing removes it. -/
theorem schema?_replay (hnamed : r.Named) (hadmitted : Admitted r ms)
    (h : r.schema? entity name number = some schema)
    (hkept : ∀ m ∈ ms, ¬ m.Removes entity name) :
    (replay r ms).schema? entity name number = some schema := by
  induction ms generalizing r with
  | nil => exact h
  | cons m ms ih =>
    apply ih (hnamed.apply m.change) hadmitted.2
    · exact Mutation.schema?_apply hnamed hadmitted.1 h (hkept m List.mem_cons_self)
    · exact fun m' hm' => hkept m' (List.mem_cons_of_mem m hm')

/-- Where something holds in the end that did not hold in the beginning, there is a first moment
of it. -/
theorem exists_first {p : Registry → Prop} (hnot : ¬ p r) (hend : p (replay r ms)) :
    ∃ before m after, ms = before ++ m :: after ∧ p (replay r (before ++ [m])) ∧
      ∀ initial, initial <+: before → ¬ p (replay r initial) := by
  induction ms generalizing r with
  | nil => exact absurd hend hnot
  | cons m ms ih =>
    by_cases hfirst : p (m.change.apply r).1
    · refine ⟨[], m, ms, rfl, hfirst, fun initial hinitial => ?_⟩
      rw [List.prefix_nil.mp hinitial]
      exact hnot
    · obtain ⟨before, m', after, rfl, hp, hbefore⟩ := ih hfirst hend
      refine ⟨m :: before, m', after, rfl, hp, fun initial hinitial => ?_⟩
      rcases List.prefix_cons_iff.mp hinitial with rfl | ⟨rest, rfl, hrest⟩
      · exact hnot
      · exact hbefore rest hrest

/-! ## Reading a history -/

theorem replay_of_readUntil (h : readUntil (fun _ => false) r ms = .ok r') : r' = replay r ms := by
  induction ms generalizing r with
  | nil =>
    cases h
    rfl
  | cons m ms ih =>
    rw [readUntil_cons rfl] at h
    obtain ⟨_, -, h⟩ := Outcome.bind_eq_ok.mp h
    exact ih h

/-- A reading that stops at the first moment of something answers the registry of that moment. -/
theorem readUntil_first {stop : Registry → Bool} {after : List Mutation}
    (h : readUntil (fun _ => false) r (before ++ m :: after) = .ok r')
    (hbefore : ∀ initial, initial <+: before → stop (replay r initial) = false)
    (hstop : stop (replay r (before ++ [m])) = true) :
    readUntil stop r (before ++ m :: after) = .ok (replay r (before ++ [m])) := by
  have hgoes : stop r = false := hbefore [] List.nil_prefix
  induction before generalizing r with
  | nil =>
    rw [List.nil_append, readUntil_cons rfl] at h
    rw [List.nil_append, readUntil_cons hgoes]
    obtain ⟨_, happly, -⟩ := Outcome.bind_eq_ok.mp h
    exact Outcome.bind_eq_ok.mpr ⟨_, happly, readUntil_of_stop hstop after⟩
  | cons m' before ih =>
    rw [List.cons_append, readUntil_cons rfl] at h
    rw [List.cons_append, readUntil_cons hgoes]
    have hlater : ∀ initial, initial <+: before →
        stop (replay (m'.change.apply r).1 initial) = false := fun initial hinitial =>
      hbefore (m' :: initial) (List.prefix_cons_iff.mpr (.inr ⟨initial, rfl, hinitial⟩))
    obtain ⟨_, happly, h⟩ := Outcome.bind_eq_ok.mp h
    exact Outcome.bind_eq_ok.mpr ⟨_, happly, ih h hlater hstop (hlater [] List.nil_prefix)⟩

/-- The events of the registry's item record the mutations: the item has been created, and then
each of its events holds a change. -/
def Recorded (ms : List Mutation) : Option (List Event) → Prop
  | none => ms = []
  | some events => ∃ first rest, events = first :: rest ∧ Change.ofEvent first = .ok none ∧
    List.Forall₂ Records rest ms

variable {keys : KeySpace} {stream : Option (List Event)}

theorem Recorded.written (h : Recorded ms stream) : Written ms stream := by
  cases stream with
  | none => exact h
  | some events =>
    obtain ⟨first, rest, rfl, hfirst, hrecords⟩ := h
    exact ⟨[first], rest, rfl, by simpa using hfirst, hrecords⟩

theorem replay_of_current (hholds : Item.Holds keys registryItem stream)
    (hrecorded : Recorded ms stream) (h : current keys = .ok r) : r = replay empty ms := by
  rw [current, fold_eq_readUntil hholds hrecorded.written] at h
  exact replay_of_readUntil h

theorem fold_until {stop : Registry → Bool} {after : List Mutation}
    (hholds : Item.Holds keys registryItem stream)
    (hrecorded : Recorded (before ++ m :: after) stream) (hcurrent : current keys = .ok r)
    (hbefore : ∀ initial, initial <+: before → stop (replay empty initial) = false)
    (hstop : stop (replay empty (before ++ [m])) = true) :
    fold keys stop = .ok (replay empty (before ++ [m])) := by
  rw [current, fold_eq_readUntil hholds hrecorded.written] at hcurrent
  rw [fold_eq_readUntil hholds hrecorded.written]
  exact readUntil_first hcurrent hbefore hstop

/-- A revision is looked up in the registry of the first moment that has it. -/
theorem eventSchema_eq_ok : eventSchema keys entity name number = .ok schema ↔
    ∃ r, fold keys (fun r => (r.schema? entity name number).isSome) = .ok r ∧
      r.schema? entity name number = some schema := by
  have hstop : ∀ stop : Registry → Bool, (∀ r, stop r = (r.schema? entity name number).isSome) →
      fold keys stop = fold keys fun r => (r.schema? entity name number).isSome :=
    fun stop hsame => congrArg (fold keys) (funext hsame)
  unfold eventSchema
  rw [hstop _ fun r => by unfold schema?; cases r.entity? entity <;> rfl, Outcome.bind_eq_ok]
  refine exists_congr fun r => and_congr_right fun _ => ?_
  rw [schema?_eq_some]
  cases r.entity? entity with
  | none => simp
  | some e => cases hget : e.get? name number <;> simp [hget, pure, Except.pure]

end Registry

/-! ## Runs -/

def Step.mutation? (step : Step) : Option Mutation :=
  match step.op with
  | .mutate m => some m
  | _ => none

/-- The mutations that a run has made, in order. -/
def Run.mutations (trace : List Step) : List Mutation := trace.filterMap Step.mutation?

namespace Run

variable {clock : Clock} {trace : List Step} {s t : Session}

theorem mutations_snoc (trace : List Step) (step : Step) :
    mutations (trace ++ [step]) = mutations trace ++ step.mutation?.toList := by
  rw [mutations, List.filterMap_append]
  cases h : step.mutation? <;> simp [mutations, h]

open Registry

/-- One step. The item of the registry is created once and for all, and no one else writes it. -/
theorem recorded_step {op : Op} {reply : Reply} {map : Streams} {ms : List Mutation}
    (hready : op.Ready s.keys) (hop : op.run s = .ok reply t)
    (hholds : Item.Holds s.keys registryItem (map registryItem))
    (hrecorded : Recorded ms (map registryItem)) :
    Recorded (ms ++ (Step.mk op reply s.keys t.keys).mutation?.toList)
      (map.next ⟨op, reply, s.keys, t.keys⟩ registryItem) := by
  by_cases hitem : op.item? = some registryItem
  · have hno_put : ∀ {event : Event} {slot : Nat} {u : Session},
        Item.put registryItem event s ≠ .ok slot u := fun h => (Item.put_eq_ok.mp h).1 rfl
    have hbegin : ∀ {id : EventId}, Item.isThere s.keys registryItem = .ok false →
        Recorded (ms ++ []) (map.begin registryItem id registryItem) := by
      intro id hthere
      rw [hholds.eq_none hthere] at hrecorded
      rw [show ms = [] from hrecorded, Streams.begin, Function.update_self]
      exact ⟨_, [], rfl, rfl, .nil⟩
    cases Op.done hready hitem hop with
    | create hcreate => exact hbegin (Item.create_extends hcreate).1
    | put hput => exact absurd hput hno_put
    | addAlias hadd =>
      obtain ⟨_, _, hput, -⟩ := Item.addAlias_eq_ok hadd
      exact absurd hput hno_put
    | removeAlias hremove =>
      obtain ⟨_, _, -, hput, -⟩ := Item.removeAlias_eq_ok hremove
      exact absurd hput hno_put
    | delete hdelete =>
      obtain ⟨_, _, hput, -⟩ := Item.delete_eq_ok hdelete
      exact absurd hput hno_put
    | sync =>
      rw [Streams.next]
      simpa [Step.mutation?] using hrecorded
    | found hthere =>
      rw [Streams.next_found (hholds.isSome hthere)]
      simpa [Step.mutation?] using hrecorded
    | ensure hthere =>
      rw [Streams.next_ensure (hholds.eq_none hthere)]
      exact hbegin hthere
    | @mutate m event _ hevent =>
      obtain ⟨events, hevents⟩ := Option.isSome_iff_exists.mp (hholds.isSome hready)
      rw [hevents] at hrecorded
      obtain ⟨first, rest, rfl, hfirst, hrecords⟩ := hrecorded
      rw [Streams.next_mutate hevent, Streams.extend, Function.update_self, hevents]
      refine ⟨first, rest ++ [_], rfl, hfirst, List.rel_append hrecords (.cons ?_ .nil)⟩
      have hchange : Change.ofEvent event = .ok (some m.change) := Change.ofEvent_toEvent hevent
      exact hchange
  · have hsame : ∀ a, op.item? = some a → a ≠ registryItem := fun a ha heq => hitem (heq ▸ ha)
    rw [Streams.next_of_ne hsame]
    cases op with
    | mutate m => exact absurd rfl hitem
    | _ => simpa [Step.mutation?] using hrecorded

theorem recorded_of_reached (h : Reached clock trace s) (hclear : Clear trace registryItem) :
    Recorded (mutations trace) (streams trace registryItem) ∧
      Admitted .empty (mutations trace) := by
  induction h with
  | start => exact ⟨rfl, trivial⟩
  | abort h hkeys hreadings htaken ih => exact ih hclear
  | @step trace s t op reply h hready hop ih =>
    have hclear' : Clear trace registryItem := fun step hstep =>
      hclear step (List.mem_append_left _ hstep)
    obtain ⟨hrecorded, hadmitted⟩ := ih hclear'
    have hholds := holds_of_reached h hclear'
    rw [streams_snoc, mutations_snoc]
    refine ⟨recorded_step hready hop hholds hrecorded, admitted_append.mpr ⟨hadmitted, ?_⟩⟩
    cases op with
    | mutate m =>
      obtain ⟨n, hm, -⟩ := Txn.map_eq_ok.mp hop
      obtain ⟨r, hcurrent, hadmits, -⟩ := Mutation.current_after hm
      rw [replay_of_current hholds hrecorded hcurrent] at hadmits
      exact ⟨hadmits, trivial⟩
    | _ => trivial

end Run

/-! ## The result -/

namespace Run

open Registry

/-- What an event type is read as, when the registry as it stands has the revision: the data schema
that the first mutation gave it with which the revision existed. That is the data schema of the
registry as it stands, unless the event type or the entity type has been deleted since. -/
theorem eventSchema_at_first_moment (txns : List (List Op)) (clock : Clock)
    (hclear : Clear (trace txns clock) registryItem) {r : Registry} {entity name : String}
    {number : Nat} {schema : Payload.Schema} (hcurrent : current (result txns clock) = .ok r)
    (hheld : r.schema? entity name number = some schema) :
    r = replay .empty (mutations (trace txns clock)) ∧
      ∃ before m after first, mutations (trace txns clock) = before ++ m :: after ∧
        (∀ initial, initial <+: before →
          (replay .empty initial).schema? entity name number = none) ∧
        (replay .empty (before ++ [m])).schema? entity name number = some first ∧
        eventSchema (result txns clock) entity name number = .ok first ∧
        ((∀ m' ∈ after, ¬ m'.Removes entity name) → first = schema) := by
  have hreached := reached txns clock
  have hholds := holds_of_reached hreached hclear
  obtain ⟨hrecorded, hadmitted⟩ := recorded_of_reached hreached hclear
  have hreplay : r = replay .empty (mutations (trace txns clock)) :=
    replay_of_current hholds hrecorded hcurrent
  have hempty : ¬ ((Registry.empty.schema? entity name number).isSome = true) := by
    simp [schema?, entity?, Registry.empty]
  have hend : ((replay .empty (mutations (trace txns clock))).schema? entity name number).isSome =
      true := by
    rw [← hreplay, hheld]
    rfl
  obtain ⟨before, m, after, hsplit, hfirst, hbefore⟩ :=
    exists_first (p := fun r => (r.schema? entity name number).isSome = true) hempty hend
  obtain ⟨first, hfirst⟩ := Option.isSome_iff_exists.mp hfirst
  have hnone : ∀ initial, initial <+: before →
      (replay .empty initial).schema? entity name number = none := fun initial hinitial =>
    Option.not_isSome_iff_eq_none.mp (hbefore initial hinitial)
  rw [hsplit] at hrecorded hadmitted hreplay
  have hfold : fold (result txns clock) (fun r => (r.schema? entity name number).isSome) =
      .ok (replay .empty (before ++ [m])) := by
    apply fold_until hholds hrecorded hcurrent
    · intro initial hinitial
      rw [hnone initial hinitial]
      rfl
    · rw [hfirst]
      rfl
  refine ⟨hsplit ▸ hreplay, before, m, after, first, hsplit, hnone, hfirst,
    eventSchema_eq_ok.mpr ⟨_, hfold, hfirst⟩, fun hkept => ?_⟩
  -- nothing has removed the revision since
  rw [← List.singleton_append, ← List.append_assoc] at hadmitted hreplay
  have hlast := schema?_replay (named_empty.replay _) (admitted_append.mp hadmitted).2 hfirst hkept
  rw [← replay_append, ← hreplay, hheld, Option.some.injEq] at hlast
  exact hlast.symm

/-- Each mutation in a transaction of its own. -/
def eachAlone (ms : List Mutation) : List (List Op) := ms.map fun m => [.mutate m]

theorem op_mem_eachAlone {ms : List Mutation} {clock : Clock} {step : Step}
    (h : step ∈ trace (eachAlone ms) clock) : step.op = .ensure ∨ ∃ m ∈ ms, step.op = .mutate m := by
  obtain ⟨ops, hops, op, hop, hstage⟩ := op_mem_of_mem_trace h
  obtain ⟨m, hm, rfl⟩ := List.mem_map.mp hops
  rw [List.mem_singleton.mp hop] at hstage
  rcases List.mem_pair.mp hstage with hfirst | hsecond
  · exact .inl hfirst
  · exact .inr ⟨m, hm, hsecond⟩

theorem clear_eachAlone (ms : List Mutation) (clock : Clock) :
    Clear (trace (eachAlone ms) clock) registryItem :=
  clear_of_alone (by simp [eachAlone, Op.item?])

theorem mem_of_mem_mutations {ms : List Mutation} {clock : Clock} {m : Mutation}
    (h : m ∈ mutations (trace (eachAlone ms) clock)) : m ∈ ms := by
  obtain ⟨step, hstep, hm⟩ := List.mem_filterMap.mp h
  rcases op_mem_eachAlone hstep with hop | ⟨m', hm', hop⟩
  · simp [Step.mutation?, hop] at hm
  · simp only [Step.mutation?, hop, Option.some.injEq] at hm
    exact hm ▸ hm'

theorem exists_ok_of_any {α : Type} {outcome : Outcome α} {p : α → Bool}
    (h : outcome.toOption.any p = true) : ∃ a, outcome = .ok a ∧ p a = true := by
  cases outcome with
  | error fault => cases h
  | ok a => exact ⟨a, rfl, h⟩

/-- An event type with two revisions. -/
def updated : List Mutation :=
  [.createEntityType "a", .createEventType "a" "b" .int, .updateEventType "a" "b" .string]

theorem eventSchema_updated : ∃ r schema,
    Clear (trace (eachAlone updated) (.steady 5 1)) registryItem ∧
    current (result (eachAlone updated) (.steady 5 1)) = .ok r ∧
    r.schema? "a" "b" 0 = some schema ∧
    eventSchema (result (eachAlone updated) (.steady 5 1)) "a" "b" 0 = .ok schema := by
  obtain ⟨r, hcurrent, hsome⟩ := exists_ok_of_any
    (show (current (result (eachAlone updated) (.steady 5 1))).toOption.any
      (fun r => (r.schema? "a" "b" 0).isSome) = true by decide +kernel)
  obtain ⟨schema, hheld⟩ := Option.isSome_iff_exists.mp hsome
  have hclear := clear_eachAlone updated (.steady 5 1)
  obtain ⟨-, before, m, after, first, hsplit, -, -, hread, hsame⟩ :=
    eventSchema_at_first_moment (eachAlone updated) (.steady 5 1) hclear hcurrent hheld
  have hkept : ∀ m' ∈ after, ¬ m'.Removes "a" "b" := by
    intro m' hm'
    have hmade : m' ∈ mutations (trace (eachAlone updated) (.steady 5 1)) := by
      rw [hsplit]
      exact List.mem_append_right _ (List.mem_cons_of_mem m hm')
    have hmem := mem_of_mem_mutations hmade
    simp only [updated, List.mem_cons, List.not_mem_nil, or_false] at hmem
    rcases hmem with rfl | rfl | rfl <;> exact id
  rw [hsame hkept] at hread
  exact ⟨r, schema, hclear, hcurrent, hheld, hread⟩

/-- An event type that is created, deleted and created again with another data schema. -/
def recreated : List Mutation :=
  [.createEntityType "a", .createEventType "a" "b" .int, .deleteEventType "a" "b",
    .createEventType "a" "b" .string]

/-- What is read is then no longer what the registry has. -/
theorem not_eventSchema_current : ¬ ∀ (txns : List (List Op)) (clock : Clock),
    Clear (trace txns clock) registryItem → ∀ r entity name number schema,
      current (result txns clock) = .ok r → r.schema? entity name number = some schema →
        eventSchema (result txns clock) entity name number = .ok schema := by
  intro h
  obtain ⟨r, hcurrent, hstring⟩ := exists_ok_of_any
    (show (current (result (eachAlone recreated) (.steady 5 1))).toOption.any
      (fun r => (r.schema? "a" "b" 0).any fun schema => schema.kind = "string") = true by
        decide +kernel)
  obtain ⟨first, hread, hint⟩ := exists_ok_of_any
    (show (eventSchema (result (eachAlone recreated) (.steady 5 1)) "a" "b" 0).toOption.any
      (fun schema => schema.kind = "int") = true by decide +kernel)
  obtain ⟨schema, hheld, hkind⟩ := (Option.any_eq_true _ _).mp hstring
  have hsame := h _ _ (clear_eachAlone recreated _) r "a" "b" 0 schema hcurrent hheld
  rw [hread, Except.ok.injEq] at hsame
  rw [hsame] at hint
  simp only [decide_eq_true_eq] at hint hkind
  rw [hint] at hkind
  exact absurd hkind (by decide)

end Run
end Chronicle
