import Mathlib
import Chronicle.Proofs.LogOrder

/-!
# Primaries

A primary is a store whose every step has appended one event that a replica can take over, or
none. What a partition has beside its log is what the last of its steps has left.
-/
namespace Chronicle

variable {owner : ItemId → UInt8} {p : UInt8} {e : LogEvent} {s t u : Session}
  {before after : KeySpace}

/-! ## Events taken over -/

/-- The event leads from one key space to the other when it is taken over, and it keeps to the
part of its partition. -/
structure LogEvent.TakenOver (owner : ItemId → UInt8) (e : LogEvent) (before after : KeySpace) :
    Prop where
  takeover : ∀ clock, Replication.apply [e] ⟨before, clock⟩ = .ok 1 ⟨after, clock⟩
  fits : Kind.isItem e.mark = true → ∃ found, e.Fits owner found
  owned : Owned owner before

namespace LogEvent.TakenOver

theorem replicate_eq_ok (h : e.TakenOver owner before after) (hitem : Kind.isItem e.mark = true)
    (clock : Clock) : Item.replicate e ⟨before.withLog [e], clock⟩ = .ok () ⟨after, clock⟩ := by
  have hindex := (Replication.apply_eq_ok.mp (h.takeover clock)).2
  rw [List.filter_cons_of_pos (by exact hitem)] at hindex
  obtain ⟨_, w, hreplicate, hrest⟩ := Txn.bind_eq_ok.mp hindex
  obtain ⟨-, rfl⟩ := Txn.pure_eq_ok.mp hrest
  exact hreplicate

theorem after_eq (h : e.TakenOver owner before after) (hitem : ¬ Kind.isItem e.mark = true) :
    after = before.withLog [e] := by
  have hindex := (Replication.apply_eq_ok.mp (h.takeover ⟨fun _ => 0, 0⟩)).2
  rw [List.filter_cons_of_neg (by exact hitem)] at hindex
  obtain ⟨-, hkeys⟩ := Txn.pure_eq_ok.mp hindex
  exact (congrArg Session.keys hkeys).symm

theorem owned_withLog (h : e.TakenOver owner before after) : Owned owner (before.withLog [e]) :=
  h.owned.insert_log _ _ _

theorem owned_after (h : e.TakenOver owner before after) : Owned owner after := by
  by_cases hitem : Kind.isItem e.mark = true
  · obtain ⟨found, hfits⟩ := h.fits hitem
    exact hfits.keepsOwned.of_ok h.owned_withLog (h.replicate_eq_ok hitem ⟨fun _ => 0, 0⟩)
  · rw [h.after_eq hitem]
    exact h.owned_withLog

/-- Beside its log entry the event changes nothing but the part of its partition. -/
theorem frame (h : e.TakenOver owner before after) :
    (before.withLog [e]).Agree (fun key => ¬ Key.Part owner e.id.partition key) after := by
  by_cases hitem : Kind.isItem e.mark = true
  · obtain ⟨found, hfits⟩ := h.fits hitem
    exact ((hfits.local_replicate h.owned_withLog).frame
      (h.replicate_eq_ok hitem ⟨fun _ => 0, 0⟩)).1
  · rw [h.after_eq hitem]
    exact .refl _

theorem withLog_agree (keys : KeySpace) (events : List LogEvent) :
    keys.Agree (Key.Part owner p) (keys.withLog events) := by
  intro key hkey
  refine (KeySpace.stored?_withLog_of_ne keys fun e _ heq => ?_).symm
  exact Key.not_part_log e.id (heq ▸ hkey)

/-- Where the part of the partition is the same, the event does the same to it. -/
theorem elsewhere (h : e.TakenOver owner before after)
    (hu : before.Agree (Key.Part owner e.id.partition) u.keys) :
    ∃ w, ([e].filter fun e => Kind.isItem e.mark).forM Item.replicate u = .ok () w ∧
      after.Agree (Key.Part owner e.id.partition) w.keys ∧
      u.keys.Agree (fun key => ¬ Key.Part owner e.id.partition key) w.keys ∧
      w.clock = u.clock := by
  have hlogged : (before.withLog [e]).Agree (Key.Part owner e.id.partition) u.keys :=
    (withLog_agree before [e]).symm.trans hu
  by_cases hitem : Kind.isItem e.mark = true
  · obtain ⟨found, hfits⟩ := h.fits hitem
    obtain ⟨w, hw, hagree, hrest⟩ := hfits.local_replicate (s := ⟨_, u.clock⟩) h.owned_withLog _ _ u
      (h.replicate_eq_ok hitem u.clock) hlogged
    refine ⟨w, ?_, hagree, hrest⟩
    rw [List.filter_cons_of_pos (by exact hitem)]
    exact Txn.bind_eq_ok.mpr ⟨(), w, hw, rfl⟩
  · refine ⟨u, ?_, ?_, .refl _, rfl⟩
    · rw [List.filter_cons_of_neg (by exact hitem)]
      rfl
    · rw [h.after_eq hitem]
      exact hlogged

end LogEvent.TakenOver

/-- Every key belongs to the log or to the part of some partition. -/
def Covered (owner : ItemId → UInt8) (keys : KeySpace) : Prop :=
  ∀ key, keys.stored? key ≠ none → ∃ p, Key.partition p <+: key ∨ Key.Part owner p key

theorem Covered.of_withLog {events : List LogEvent} (h : Covered owner before)
    (hkeys : (before.withLog events).Agree (fun key => ¬ Key.Part owner p key) after) :
    Covered owner after := by
  intro key hstored
  by_cases hpart : Key.Part owner p key
  · exact ⟨p, .inr hpart⟩
  · rw [← hkeys key hpart] at hstored
    by_cases hlog : ∃ e ∈ events, Key.log e.id = key
    · obtain ⟨e, -, rfl⟩ := hlog
      exact ⟨e.id.partition, .inl (Key.partition_prefix_log.mpr rfl)⟩
    · rw [KeySpace.stored?_withLog_of_ne _ fun e he heq => hlog ⟨e, he, heq⟩] at hstored
      exact h key hstored

/-! ## Primaries -/

/-- A session of a primary with the steps that have led to it. Each step has appended an event,
or nothing. -/
inductive Primary (owner : ItemId → UInt8) (clock : Clock) : List Step → Session → Prop
  | start : Primary owner clock [] (Session.start clock)
  | abort {trace : List Step} {s t : Session} (h : Primary owner clock trace s)
      (hkeys : t.keys = s.keys) (hreadings : t.clock.readings = s.clock.readings)
      (htaken : s.clock.taken ≤ t.clock.taken) : Primary owner clock trace t
  | idle {trace : List Step} {s : Session} (op : Op) (reply : Reply)
      (h : Primary owner clock trace s) :
      Primary owner clock (trace ++ [⟨op, reply, s.keys, s.keys⟩]) s
  | append {trace : List Step} {s t : Session} {e : LogEvent} (op : Op) (reply : Reply)
      (h : Primary owner clock trace s) (happended : e.Appended s t)
      (htaken : e.TakenOver owner s.keys t.keys) :
      Primary owner clock (trace ++ [⟨op, reply, s.keys, t.keys⟩]) t

namespace Primary

variable {clock : Clock} {trace : List Step}

theorem owned (h : Primary owner clock trace s) : Owned owner s.keys := by
  induction h with
  | start => exact Owned.empty
  | abort h hkeys _ _ ih => rw [hkeys]; exact ih
  | idle op reply h ih => exact ih
  | append op reply h happended htaken ih => exact htaken.owned_after

theorem logging (h : Primary owner clock trace s) : Logging clock trace s := by
  induction h with
  | start => exact .start
  | abort h hkeys hreadings htaken ih => exact ih.abort hkeys hreadings htaken
  | idle op reply h ih => exact ih.idle op reply
  | append op reply h happended htaken ih => exact ih.enter op reply happended.toEntered

theorem covered (h : Primary owner clock trace s) : Covered owner s.keys := by
  induction h with
  | start => exact fun key hstored => absurd (KeySpace.stored?_empty key) hstored
  | abort h hkeys _ _ ih => rw [hkeys]; exact ih
  | idle op reply h ih => exact ih
  | append op reply h happended htaken ih => exact ih.of_withLog htaken.frame

/-- A run of shippable operations in which no two partitions share an alias. -/
theorem of_reached (h : Run.Reached clock trace s)
    (hshippable : ∀ step ∈ trace, step.op.Shippable)
    (halias : ∀ step ∈ trace, ∀ item x, step.op = .addAlias item x → owner x = item.tag.toUInt8) :
    Primary owner clock trace s := by
  induction h with
  | start => exact .start
  | abort h hkeys hreadings htaken ih => exact (ih hshippable halias).abort hkeys hreadings htaken
  | @step trace s t op reply h hready hop ih =>
    have hbefore := ih (fun step hstep => hshippable step (List.mem_append_left _ hstep))
      fun step hstep => halias step (List.mem_append_left _ hstep)
    have hlast : (⟨op, reply, s.keys, t.keys⟩ : Step) ∈ trace ++ [⟨op, reply, s.keys, t.keys⟩] :=
      List.mem_append_right _ List.mem_cons_self
    rcases Op.appended (hshippable _ hlast) hready hbefore.owned
      (fun item x hadd => halias _ hlast item x hadd) hop with rfl | ⟨e, happended, hfits⟩
    · exact hbefore.idle op reply
    · exact hbefore.append op reply happended ⟨happended.takeover, hfits, hbefore.owned⟩

end Primary

/-! ## Lineage -/

/-- What the last of the steps has left. -/
def Run.leftBy (steps : List Step) : KeySpace := (steps.getLast?.map Step.after).getD .empty

theorem Run.leftBy_snoc (steps : List Step) (step : Step) : leftBy (steps ++ [step]) = step.after := by
  simp [leftBy]

/-- The step appends an event to the partition, and it finds the part of the partition as the steps
before it have left it. -/
structure Step.Follows (owner : ItemId → UInt8) (p : UInt8) (steps : List Step) (step : Step) :
    Prop where
  part : (Run.leftBy steps).Agree (Key.Part owner p) step.before
  log : (KeySpace.empty.withLog ((steps ++ [step]).filterMap Step.added)).Agree
    (Key.partition p <+: ·) step.after
  event : ∃ e, step.added = some e ∧ e.id.partition = p ∧
    e.TakenOver owner step.before step.after

namespace Run

/-- Each of the steps goes on where those before it have left the partition. -/
def Lineage (owner : ItemId → UInt8) (p : UInt8) (steps : List Step) : Prop :=
  ∀ before step after, steps = before ++ step :: after → step.Follows owner p before

theorem Lineage.snoc {steps : List Step} {step : Step} (h : Lineage owner p steps)
    (hstep : step.Follows owner p steps) : Lineage owner p (steps ++ [step]) := by
  intro before other after hsplit
  rcases List.eq_nil_or_concat after with rfl | ⟨rest, last, rfl⟩
  · rw [← List.concat_eq_append, ← List.concat_eq_append, List.concat_inj] at hsplit
    rwa [← hsplit.1, ← hsplit.2]
  · rw [List.concat_eq_append, ← List.cons_append, ← List.append_assoc, ← List.concat_eq_append,
      ← List.concat_eq_append, List.concat_inj] at hsplit
    exact h _ _ _ hsplit.1

theorem Lineage.take {steps : List Step} (h : Lineage owner p steps) (n : Nat) :
    Lineage owner p (steps.take n) := by
  intro before step after hsplit
  refine h before step (after ++ steps.drop n) ?_
  rw [← List.cons_append, ← List.append_assoc, ← hsplit, List.take_append_drop]

theorem Lineage.owned {steps : List Step} (h : Lineage owner p steps) :
    Owned owner (leftBy steps) := by
  rcases List.eq_nil_or_concat steps with rfl | ⟨before, step, rfl⟩
  · exact Owned.empty
  · rw [List.concat_eq_append] at h ⊢
    obtain ⟨e, -, -, htaken⟩ := (h before step [] rfl).event
    rw [leftBy_snoc]
    exact htaken.owned_after

theorem Lineage.log {steps : List Step} (h : Lineage owner p steps) :
    (KeySpace.empty.withLog (steps.filterMap Step.added)).Agree (Key.partition p <+: ·)
      (leftBy steps) := by
  rcases List.eq_nil_or_concat steps with rfl | ⟨before, step, rfl⟩
  · exact .refl _
  · rw [List.concat_eq_append] at h ⊢
    rw [leftBy_snoc]
    exact (h before step [] rfl).log

/-- The last of the steps is the one that has appended the last event. -/
theorem Lineage.leftBy_eq {steps : List Step} (h : Lineage owner p steps) :
    (steps.filterMap Step.added = [] → leftBy steps = .empty) ∧
      ∀ e, (steps.filterMap Step.added).getLast? = some e →
        ∃ step ∈ steps, step.added = some e ∧ leftBy steps = step.after := by
  rcases List.eq_nil_or_concat steps with rfl | ⟨before, step, rfl⟩
  · exact ⟨fun _ => rfl, nofun⟩
  · rw [List.concat_eq_append] at h ⊢
    obtain ⟨e, hadded, -⟩ := (h before step [] rfl).event
    rw [leftBy_snoc, List.filterMap_append, List.filterMap_cons_some hadded, List.filterMap_nil]
    refine ⟨fun hnil => by simp at hnil, fun other hother => ?_⟩
    rw [List.getLast?_concat, Option.some.injEq] at hother
    exact ⟨step, List.mem_append_right _ List.mem_cons_self, hother ▸ hadded, rfl⟩

end Run

namespace Primary

variable {clock : Clock} {trace : List Step}

/-- A primary has of each partition what the last step of the partition has left. -/
theorem lineage (h : Primary owner clock trace s) (p : UInt8) :
    Run.Lineage owner p (Run.stepsOf p trace) ∧
      (Run.leftBy (Run.stepsOf p trace)).Agree (Key.Part owner p) s.keys := by
  induction h with
  | start => exact ⟨fun before step after hsplit => by simp [Run.stepsOf] at hsplit, .refl _⟩
  | abort h hkeys _ _ ih => rw [hkeys]; exact ih
  | idle op reply h ih => rw [Run.stepsOf_idle]; exact ih
  | @append trace s t e op reply h happended htaken ih =>
    have hadded := Step.added_eq op reply happended.adds
    by_cases hp : e.id.partition = p
    · subst hp
      have hlog := (h.append op reply happended htaken).logging.log_agree e.id.partition
      rw [Run.appended, Run.stepsOf_snoc hadded] at hlog
      rw [Run.stepsOf_snoc hadded, Run.leftBy_snoc]
      exact ⟨ih.1.snoc ⟨ih.2, hlog, e, hadded, rfl, htaken⟩, .refl _⟩
    · rw [Run.stepsOf_snoc_of_ne]
      · refine ⟨ih.1, ih.2.trans ?_⟩
        exact (LogEvent.TakenOver.withLog_agree _ [e]).trans fun key hkey =>
          htaken.frame key fun hpart => hp (hpart.unique hkey)
      · intro e' he'
        rw [hadded, Option.some.injEq] at he'
        rwa [← he']

end Primary
end Chronicle
