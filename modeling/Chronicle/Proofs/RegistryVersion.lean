import Mathlib
import Chronicle.Proofs.RegistryFrozen

/-!
# The version of the registry

The version of the registry is read off the counter of its item, while the registry itself is
folded from the changes in the item's slots. The two agree, since the item holds the event of its
creation, one change for each mutation that has been committed and nothing else, and no operation
on it or on another item takes any of that away.
-/
namespace Chronicle

/-! ## The registry's item -/

namespace Registry

variable {keys : KeySpace} {ms : List Mutation} {events : List Event}

theorem kind_of_ofEvent {event : Event} {change : Change}
    (h : Change.ofEvent event = .ok (some change)) : event.kind = Kind.schema := by
  by_contra hkind
  rw [Change.ofEvent, if_pos hkind] at h
  cases h

theorem vsn_replay (r : Registry) (ms : List Mutation) :
    (replay r ms).vsn = r.vsn + ms.length := by
  induction ms generalizing r with
  | nil => rfl
  | cons m ms ih =>
    change (replay (m.change.apply r).1 ms).vsn = _
    rw [ih, vsn_apply, List.length_cons, Nat.add_assoc, Nat.add_comm 1]

/-- The item has the event of its creation in its first slot and after it, in order, the changes of
the mutations. -/
structure SlotsRecord (keys : KeySpace) (ms : List Mutation) : Prop where
  version : Item.version keys registryItem = .ok (ms.length + 1)
  created : ∃ id, Item.slotEvent keys registryItem 0 =
    .ok { Event.lifecycle .created [] with id := id }
  changes : ∀ n (hn : n < ms.length), ∃ event,
    Item.slotEvent keys registryItem (n + 1) = .ok event ∧ event.kind = Kind.schema ∧
      Change.ofEvent event = .ok (some ms[n].change)

theorem Recorded.slotsRecord (hrecorded : Recorded ms (some events))
    (hholds : Item.Holds keys registryItem (some events))
    (hcreated : ∃ id rest, events = { Event.lifecycle .created [] with id := id } :: rest) :
    SlotsRecord keys ms := by
  obtain ⟨hversion, hstored, -⟩ := hholds
  obtain ⟨first, rest, rfl, -, hrecords⟩ := hrecorded
  have hlength := hrecords.length_eq
  obtain ⟨id, rest', heq⟩ := hcreated
  obtain ⟨rfl, rfl⟩ := List.cons.inj heq
  refine ⟨by rw [hversion, List.length_cons, hlength], ⟨id, hstored.1⟩, fun n hn => ?_⟩
  have hrest : n < rest.length := hlength ▸ hn
  have hrecord : Records rest[n] ms[n] := hrecords.get hrest hn
  exact ⟨rest[n], hstored.slotEvent (Nat.succ_lt_succ hrest), kind_of_ofEvent hrecord, hrecord⟩

theorem SlotsRecord.latestVersion_eq (h : SlotsRecord keys ms) :
    latestVersion keys = .ok ms.length := by
  unfold latestVersion
  rw [(Item.isThere_of_version h.version).1, h.version]
  rfl

theorem latestVersion_of_not_isThere (h : Item.isThere keys registryItem = .ok false) :
    latestVersion keys = .ok 0 := by
  unfold latestVersion
  rw [h]
  rfl

end Registry

/-! ## Runs -/

namespace Run

open Registry

section

variable {clock : Clock} {trace later : List Step} {s : Session}

/-- No one is about an item whose name goes on where that of the registry's item ends. -/
theorem clear_registryItem
    (h : ∀ step ∈ trace, ∀ item, step.op.item? = some item → ¬ item.Continues registryItem) :
    Clear trace registryItem :=
  fun step hstep item hitem => ⟨h step hstep item hitem, not_registryItem_continues item⟩

/-- The item of the registry cannot be deleted. -/
theorem op_ne_delete_registryItem (h : Reached clock trace s) {step : Step} (hstep : step ∈ trace) :
    step.op ≠ .delete registryItem := by
  obtain ⟨before, after, hsplit⟩ := List.append_of_mem hstep
  obtain ⟨u, w, -, -, hop, -⟩ := h.at_step hsplit
  intro hdelete
  rw [hdelete] at hop
  obtain ⟨_, hdelete, -⟩ := Txn.map_eq_ok.mp hop
  obtain ⟨slot, v, hput, -⟩ := Item.delete_eq_ok hdelete
  exact (Item.put_eq_ok.mp hput).1 rfl

theorem isSome_streams_append (h : Reached clock (trace ++ later) s)
    (hsome : (streams trace registryItem).isSome = true) :
    (streams (trace ++ later) registryItem).isSome = true := by
  obtain ⟨before, step, after, rfl, hcreates, hafter⟩ := (isSome_streams_iff _ _).mp hsome
  refine (isSome_streams_iff _ _).mpr ⟨before, step, after ++ later, by simp, hcreates, ?_⟩
  intro last hlast
  rcases List.mem_append.mp hlast with hlast | hlast
  · exact hafter last hlast
  · exact op_ne_delete_registryItem h (List.mem_append_right _ hlast)

/-- The item of the registry after a run is the record of the mutations that have been committed. -/
theorem slotsRecord_of_reached (h : Reached clock trace s) (hclear : Clear trace registryItem)
    (hsome : (streams trace registryItem).isSome = true) :
    SlotsRecord s.keys (mutations trace) := by
  obtain ⟨events, hevents⟩ := Option.isSome_iff_exists.mp hsome
  have hholds := holds_of_reached h hclear
  have hrecorded := (recorded_of_reached h hclear).1
  rw [hevents] at hholds hrecorded
  exact hrecorded.slotsRecord hholds (created_of_streams hevents)

theorem latestVersion_of_reached (h : Reached clock trace s) (hclear : Clear trace registryItem) :
    latestVersion s.keys = .ok (mutations trace).length := by
  have hholds := holds_of_reached h hclear
  have hrecorded := (recorded_of_reached h hclear).1
  cases hstream : streams trace registryItem with
  | none =>
    rw [hstream] at hholds hrecorded
    rw [show mutations trace = [] from hrecorded]
    exact latestVersion_of_not_isThere hholds
  | some events =>
    exact (slotsRecord_of_reached h hclear (by rw [hstream]; rfl)).latestVersion_eq

end

/-- The version of the registry is the number of mutations that have been committed, and that of
the registry as it stands whenever this one can be read. Once the item of the registry has been
created it stays, whatever further transactions do, with the event of its creation in its first slot
and the changes of the mutations in the others. -/
theorem latestVersion_eq_folded (txns more : List (List Op)) (clock : Clock)
    (hclear : ∀ step ∈ trace (txns ++ more) clock, ∀ item, step.op.item? = some item →
      ¬ item.Continues registryItem) :
    latestVersion (result txns clock) = .ok (mutations (trace txns clock)).length ∧
    (∀ r, current (result txns clock) = .ok r → latestVersion (result txns clock) = .ok r.vsn) ∧
    (Item.isThere (result txns clock) registryItem = .ok true →
      Item.isThere (result (txns ++ more) clock) registryItem = .ok true ∧
        SlotsRecord (result txns clock) (mutations (trace txns clock))) := by
  obtain ⟨later, hlater⟩ := trace_append txns more clock
  have hreached := reached txns clock
  have hreached' := reached (txns ++ more) clock
  have hclear' := clear_registryItem hclear
  rw [hlater] at hreached' hclear'
  have hclearBefore : Clear (trace txns clock) registryItem := fun step hstep =>
    hclear' step (List.mem_append_left _ hstep)
  have hholds := holds_of_reached hreached hclearBefore
  have hversion := latestVersion_of_reached hreached hclearBefore
  refine ⟨hversion, fun r hr => ?_, fun hthere => ?_⟩
  · have hreplay := replay_of_current hholds (recorded_of_reached hreached hclearBefore).1 hr
    rw [hreplay, vsn_replay]
    exact hversion.trans (congrArg Except.ok (Nat.zero_add _).symm)
  · have hsome : (streams (trace txns clock) registryItem).isSome = true :=
      Except.ok.inj (hholds.isThere.symm.trans hthere)
    have hstays := (holds_of_reached hreached' hclear').isThere
    rw [isSome_streams_append hreached' hsome] at hstays
    exact ⟨hstays, slotsRecord_of_reached hreached hclearBefore hsome⟩

/-- The item of the registry is created directly, a mutation is made alone and another beside a
mutation that fails, and the events of the item are viewed. -/
def mixedAttempts : List (List Op) :=
  [[.create registryItem, .mutate (.createEntityType "a")],
    [.mutate (.createEntityType "b"), .mutate (.createEntityType "a")],
    [.sync registryItem [1] ⟨fun n _ => .ok (.next (n + 1)), fun n => .ok [n], fun _ => .ok 0⟩ 0],
    [.put registryItem (.entity [] [])], [.mutate (.deleteEntityType "a")]]

theorem latestVersion_mixedAttempts :
    latestVersion (result mixedAttempts (.steady 5 1)) = .ok 2 ∧
      (∃ r, current (result mixedAttempts (.steady 5 1)) = .ok r ∧ r.vsn = 2) ∧
      Item.isThere (result (mixedAttempts ++ [[.delete registryItem]]) (.steady 5 1)) registryItem =
        .ok true := by
  have hclear : ∀ step ∈ trace (mixedAttempts ++ [[.delete registryItem]]) (.steady 5 1),
      ∀ item, step.op.item? = some item → ¬ item.Continues registryItem := by
    refine forall_mem_trace (Q := fun op => ∀ item, op.item? = some item →
      ¬ item.Continues registryItem) (fun _ h => h) ?_
    simp [mixedAttempts, Op.item?, ItemId.not_continues_self]
  have hthere : Item.isThere (result mixedAttempts (.steady 5 1)) registryItem = .ok true :=
    Outcome.eq_ok_of_toOption (by decide +kernel)
  obtain ⟨r, hr, -⟩ := exists_ok_of_any
    (show (current (result mixedAttempts (.steady 5 1))).toOption.any (fun _ => true) = true by
      decide +kernel)
  obtain ⟨hversion, hfolded, hstays⟩ := latestVersion_eq_folded mixedAttempts _ (.steady 5 1) hclear
  have htwo : (mutations (trace mixedAttempts (.steady 5 1))).length = 2 := by decide +kernel
  rw [htwo] at hversion
  have hvsn := hfolded r hr
  rw [hversion, Except.ok.injEq] at hvsn
  exact ⟨hversion, ⟨r, hr, hvsn.symm⟩, (hstays hthere).1⟩

end Run
end Chronicle
