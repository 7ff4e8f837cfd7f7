import Mathlib
import Chronicle.Proofs.Failures
import Chronicle.Proofs.RegistryHistory

/-!
# The frozen past of the registry

A reading of the registry goes through the changes of the mutations that have succeeded, in order,
as far as it needs to. Nothing that happens to the store later changes those it has gone through:
mutations that succeed add to the end, and whatever else succeeds or fails adds nothing. So the
registry of a version already reached, and an event type once found, are read the same ever after.
-/
namespace Chronicle

namespace Registry

variable {r r' : Registry} {ms more : List Mutation} {stop : Registry → Bool}

/-! ## Reading changes -/

/-- Applies the changes of mutations, as far as they apply. -/
def applyAll : Registry → List Mutation → Outcome Registry
  | r, [] => .ok r
  | r, m :: ms => do
    (m.change.apply r).2
    applyAll (m.change.apply r).1 ms

theorem vsn_addRevision (r : Registry) (entity name : String) (schema : Bytes)
    (number : EntityType Payload.Schema → Nat) :
    (Change.addRevision r entity name schema number).1.vsn = r.vsn := by
  unfold Change.addRevision
  cases r.entity? entity with
  | none => rfl
  | some e => cases Payload.Schema.parse? schema <;> rfl

/-- Every change counts, also one that does not apply. -/
theorem vsn_apply (c : Change) (r : Registry) : (c.apply r).1.vsn = r.vsn + 1 := by
  cases c with
  | entityCreated name => rfl
  | entityDeleted name => rfl
  | eventCreated entity name schema => exact vsn_addRevision _ _ _ _ _
  | eventUpdated entity name schema => exact vsn_addRevision _ _ _ _ _
  | eventDeleted entity name =>
    unfold Change.apply
    dsimp only
    split <;> rfl

theorem vsn_applyAll (h : applyAll r ms = .ok r') : r'.vsn = r.vsn + ms.length := by
  induction ms generalizing r with
  | nil =>
    cases h
    rfl
  | cons m ms ih =>
    rw [applyAll] at h
    obtain ⟨_, -, h⟩ := Outcome.bind_eq_ok.mp h
    rw [ih h, vsn_apply, List.length_cons]
    omega

/-- Up to a version, that is so many changes. -/
theorem readUntil_vsn (v : Nat) (r : Registry) (ms : List Mutation) :
    readUntil (fun r => v ≤ r.vsn) r ms = applyAll r (ms.take (v - r.vsn)) := by
  induction ms generalizing r with
  | nil => rw [readUntil, List.take_nil, applyAll]
  | cons m ms ih =>
    by_cases hstop : v ≤ r.vsn
    · rw [readUntil_of_stop (decide_eq_true hstop), Nat.sub_eq_zero_of_le hstop, List.take_zero,
        applyAll]
    · have hsub : v - r.vsn = v - (m.change.apply r).1.vsn + 1 := by
        rw [vsn_apply]
        omega
      rw [readUntil, if_neg (by simpa using hstop), hsub, List.take_succ_cons, applyAll]
      simp only [ih]

/-- A reading that has stopped does not see what comes later. -/
theorem readUntil_append (h : readUntil stop r ms = .ok r') (hstop : stop r' = true) :
    readUntil stop r (ms ++ more) = .ok r' := by
  induction ms generalizing r with
  | nil =>
    cases h
    exact readUntil_of_stop hstop more
  | cons m ms ih =>
    rw [List.cons_append, readUntil]
    rw [readUntil] at h
    split_ifs at h ⊢ with hnow
    · exact h
    · obtain ⟨_, happly, h⟩ := Outcome.bind_eq_ok.mp h
      exact Outcome.bind_eq_ok.mpr ⟨_, happly, ih h⟩

/-! ## The store -/

/-- The item of the registry holds the changes of the mutations, and no others. -/
def Kept (keys : KeySpace) (ms : List Mutation) : Prop :=
  ∃ stream, Item.Holds keys registryItem stream ∧ Written ms stream

variable {s t : Session} {fault : Fault} {m : Mutation}

theorem kept_empty : Kept .empty [] :=
  ⟨none, Item.isThere_eq_false_iff.mpr (KeySpace.stored?_empty _), rfl⟩

theorem Kept.within {F : Bytes → Prop} (h : Kept s.keys ms) (hwithin : s.Within F t)
    (hversion : ¬ F (Key.version registryItem)) (hslot : ∀ n, ¬ F (Key.slot registryItem n)) :
    Kept t.keys ms := by
  obtain ⟨stream, hholds, hwritten⟩ := h
  exact ⟨stream, hholds.within hwithin hversion hslot, hwritten⟩

/-- The item of the registry may get its first event, which is no change. -/
theorem keeps_create : (Item.create registryItem).Keeps fun s => Kept s.keys ms := by
  rintro s ⟨_ | events, hholds, hwritten⟩
  · rw [show ms = [] from hwritten]
    cases hcreate : Item.create registryItem s with
    | ok v t =>
      obtain ⟨-, id, hextends⟩ := Item.create_extends hcreate
      rw [Txn.leaves_of_ok hcreate]
      refine ⟨_, hextends.holds, [_], [], rfl, fun e he => ?_, .nil⟩
      rw [List.mem_singleton.mp he]
      rfl
    | error fault t =>
      rw [Txn.leaves_of_error hcreate]
      rcases Item.bare_of_create_error hholds hcreate with h | h
      · exact ⟨none, h, rfl⟩
      · exact ⟨some [], h, [], [], rfl, nofun, .nil⟩
  · rw [Txn.leaves_of_error (Item.create_of_isThere hholds.isThere)]
    exact ⟨some events, hholds, hwritten⟩

theorem keeps_ensure : ensure.Keeps fun s => Kept s.keys ms := keeps_ensure_of_create keeps_create

theorem Kept.append (h : Kept s.keys ms) {slot : Nat} (happend : append m.change s = .ok slot t) :
    Kept t.keys (ms ++ [m]) := by
  obtain ⟨stream, hholds, hwritten⟩ := h
  obtain ⟨event, hevent, hput⟩ := append_eq_ok.mp happend
  obtain ⟨hversion, id, hextends⟩ := Item.putNext_extends hput
  obtain ⟨events, rfl, -, hafter⟩ := hholds.extends hversion hextends
  obtain ⟨quiet, rest, rfl, hquiet, hrecords⟩ := hwritten
  refine ⟨_, hafter, quiet, rest ++ [_], List.append_assoc _ _ _, hquiet,
    List.rel_append hrecords (.cons ?_ .nil)⟩
  have hchange : Change.ofEvent event = .ok (some m.change) := Change.ofEvent_toEvent hevent
  exact hchange

theorem Kept.append_of_error (h : Kept s.keys ms)
    (hthere : Item.isThere s.keys registryItem = .ok true)
    (happend : Registry.append m.change s = .error fault t) : Kept t.keys ms := by
  obtain ⟨_ | events, hholds, hwritten⟩ := h
  · rw [show Item.isThere s.keys registryItem = .ok false from hholds] at hthere
    cases hthere
  · exact ⟨some events, Registry.append_of_error hholds happend, hwritten⟩

/-- A mutation that succeeds adds its change, one that fails adds none. -/
theorem kept_mutate (h : Kept s.keys ms) (m : Mutation) :
    Kept (m.run.leaves s).keys (ms ++ if m.run.succeeds s then [m] else []) := by
  have hensured := keeps_ensure s h
  cases hrun : m.run s with
  | ok n t =>
    obtain ⟨r, u, hprepare, -, slot, happend, -⟩ := Mutation.run_eq_ok.mp hrun
    rw [Txn.leaves_of_ok (prepare_eq_ok.mp hprepare).1] at hensured
    rw [Txn.leaves_of_ok hrun, if_pos (Txn.succeeds_iff.mpr ⟨n, t, hrun⟩)]
    exact hensured.append happend
  | error fault t =>
    have hfails : ¬ m.run.succeeds s = true := by simp [Txn.succeeds, hrun]
    rw [Txn.leaves_of_error hrun, if_neg hfails, List.append_nil]
    rcases Mutation.run_of_error hrun with hensure | ⟨u, hensure, rfl | happend⟩
    · rwa [Txn.leaves_of_error hensure] at hensured
    · rwa [Txn.leaves_of_ok hensure] at hensured
    · rw [Txn.leaves_of_ok hensure] at hensured
      exact hensured.append_of_error (ensure_eq_ok hensure).1 happend

end Registry

/-- The mutation that an operation makes, if it is one and succeeds. -/
def Op.made (op : Op) (s : Session) : List Mutation :=
  match op with
  | .mutate m => if m.run.succeeds s then [m] else []
  | _ => []

/-- No name goes on where that of the registry's item ends, nor does that one go on elsewhere. -/
theorem not_registryItem_continues (item : ItemId) : ¬ registryItem.Continues item := by
  have hbytes : Key.slotMark ∉ registryItem.name ∧ Key.viewMark ∉ registryItem.name := by decide
  rintro ⟨-, rest, hname | hname⟩
  · exact hbytes.1 (hname ▸ by simp)
  · exact hbytes.2 (hname ▸ by simp)

namespace Registry

variable {s : Session} {ms more : List Mutation}

/-- What one operation does to the registry, whether it succeeds or not. -/
theorem kept_op {op : Op} (hclear : ∀ item, op.item? = some item → ¬ item.Continues registryItem)
    (h : Kept s.keys ms) : Kept (op.run.leaves s).keys (ms ++ op.made s) := by
  by_cases hitem : op.item? = some registryItem
  · have hput : ∀ event, (Item.put registryItem event).Keeps fun s => Kept s.keys ms :=
      fun event => Txn.keeps_refuse _
    have hno_put : ∀ {event : Event} {slot : Nat} {s t : Session},
        Item.put registryItem event s ≠ .ok slot t := fun h => (Item.put_eq_ok.mp h).1 rfl
    have hkeeps : ∀ {α : Type} {m : Txn α} {f : α → Reply}, (m.Keeps fun s => Kept s.keys ms) →
        Kept ((f <$> m).leaves s).keys (ms ++ []) := by
      intro α m f hm
      rw [Txn.leaves_map, List.append_nil]
      exact hm s h
    cases op with
    | create item =>
      cases hitem
      exact hkeeps keeps_create
    | put item event =>
      cases hitem
      exact hkeeps (hput event)
    | addAlias item x =>
      cases hitem
      exact hkeeps ((Txn.keeps_query _).bind fun _ => Txn.keeps_refuse_if
        ((hput _).bind_of_ok fun _ hok _ => absurd hok hno_put))
    | removeAlias item x =>
      cases hitem
      exact hkeeps ((Txn.keeps_query _).bind fun _ => Txn.keeps_refuse_if
        ((hput _).bind_of_ok fun _ hok _ => absurd hok hno_put))
    | delete item =>
      cases hitem
      exact hkeeps ((hput _).bind_of_ok fun _ hok _ => absurd hok hno_put)
    | sync item name view initial =>
      cases hitem
      refine hkeeps fun s hs => hs.within (Txn.Keeps.writes_leaves (Item.writes_sync name view initial
        (F := Item.Aside registryItem) fun name => .inr (.inl ⟨name, rfl⟩)) s).within ?_ ?_
      · exact Item.not_aside_version
      · exact Item.not_aside_slot
    | ensure => exact hkeeps keeps_ensure
    | mutate m =>
      have hmade := kept_mutate h m
      rwa [← Txn.leaves_map m.run Reply.number] at hmade
    | log | logAt => cases hitem
  · have hnone : op.made s = [] := by
      cases op with
      | mutate m => exact absurd rfl hitem
      | _ => rfl
    have hapart : ∀ item, op.item? = some item → item.Apart registryItem := fun item hop =>
      ItemId.apart_of_not_continues (fun heq => hitem (heq ▸ hop)) (not_registryItem_continues item)
        (hclear item hop)
    rw [hnone, List.append_nil]
    exact h.within (Txn.Keeps.writes_leaves op.writes s).within
      (Op.not_touches_sub hapart .version) fun n => Op.not_touches_sub hapart (.slot n)

/-- What has been found once is found again after more changes. -/
theorem eventSchema_stays {before after : KeySpace} {stream later : Option (List Event)}
    (hholds : Item.Holds before registryItem stream) (hwritten : Written ms stream)
    (hholds' : Item.Holds after registryItem later) (hwritten' : Written (ms ++ more) later)
    {entity name : String} {number : Nat} {schema : Payload.Schema}
    (hread : eventSchema before entity name number = .ok schema) :
    eventSchema after entity name number = .ok schema := by
  obtain ⟨r, hfold, hschema⟩ := eventSchema_eq_ok.mp hread
  refine eventSchema_eq_ok.mpr ⟨r, ?_, hschema⟩
  rw [fold_eq_readUntil hholds hwritten] at hfold
  rw [fold_eq_readUntil hholds' hwritten']
  exact readUntil_append hfold (by rw [hschema]; rfl)

/-- A key space that holds changes, and one that holds more of them. -/
theorem frozen_of_kept {before after : KeySpace} (hbefore : Kept before ms)
    (hafter : Kept after (ms ++ more)) :
    (∀ v, atVersion before v = applyAll .empty (ms.take v) ∧
      ∀ r, atVersion before v = .ok r → r.vsn = min v ms.length) ∧
    (∀ v ≤ ms.length, atVersion after v = atVersion before v) ∧
    ∀ entity name number schema, eventSchema before entity name number = .ok schema →
      eventSchema after entity name number = .ok schema := by
  obtain ⟨stream, hholds, hwritten⟩ := hbefore
  obtain ⟨later, hholds', hwritten'⟩ := hafter
  have hversion : ∀ v, atVersion before v = applyAll .empty (ms.take v) := fun v =>
    (fold_eq_readUntil hholds hwritten _).trans (readUntil_vsn v .empty _)
  refine ⟨fun v => ⟨hversion v, fun r hr => ?_⟩, fun v hv => ?_, ?_⟩
  · rw [hversion v] at hr
    rw [vsn_applyAll hr, List.length_take]
    exact Nat.zero_add _
  · rw [hversion v, atVersion, fold_eq_readUntil hholds' hwritten', readUntil_vsn]
    change applyAll .empty (List.take v _) = _
    rw [List.take_append_of_le_length hv]
  · exact fun entity name number schema => eventSchema_stays hholds hwritten hholds' hwritten'

end Registry

/-! ## Histories of a store -/

namespace Run

/-- What an operation leaves of a store, at a clock of its own. One that fails leaves what it wrote
before it failed. What an aborted transaction did is not among the operations. -/
def attempt (keys : KeySpace) (a : Op × Clock) : KeySpace := (a.1.run.leaves ⟨keys, a.2⟩).keys

def attempts (keys : KeySpace) (as : List (Op × Clock)) : KeySpace := as.foldl attempt keys

/-- The mutations that have succeeded, in order. -/
def made (keys : KeySpace) : List (Op × Clock) → List Mutation
  | [] => []
  | a :: as => a.1.made ⟨keys, a.2⟩ ++ made (attempt keys a) as

theorem attempts_append (keys : KeySpace) (as more : List (Op × Clock)) :
    attempts keys (as ++ more) = attempts (attempts keys as) more := List.foldl_append

theorem made_append (keys : KeySpace) (as more : List (Op × Clock)) :
    made keys (as ++ more) = made keys as ++ made (attempts keys as) more := by
  induction as generalizing keys with
  | nil => rfl
  | cons a as ih =>
    rw [List.cons_append, made, made, ih, List.append_assoc]
    rfl

/-- No operation is about an item whose name goes on where that of the registry's item ends. -/
def ClearOfRegistry (as : List (Op × Clock)) : Prop :=
  ∀ a ∈ as, ∀ item, a.1.item? = some item → ¬ item.Continues registryItem

theorem kept_attempts {as : List (Op × Clock)} {keys : KeySpace} {ms : List Mutation}
    (hclear : ClearOfRegistry as) (h : Registry.Kept keys ms) :
    Registry.Kept (attempts keys as) (ms ++ made keys as) := by
  induction as generalizing keys ms with
  | nil =>
    rw [made, List.append_nil]
    exact h
  | cons a as ih =>
    have hfirst := Registry.kept_op (s := ⟨keys, a.2⟩) (hclear a List.mem_cons_self) h
    rw [made, ← List.append_assoc]
    exact ih (fun b hb => hclear b (List.mem_cons_of_mem a hb)) hfirst

/-- A run of transactions is a history of this kind. -/
theorem exists_attempts {clock : Clock} {trace : List Step} {s : Session}
    (h : Reached clock trace s) : ∃ as, attempts .empty as = s.keys ∧
      made .empty as = mutations trace ∧ as.map (fun a => a.1) = trace.map Step.op := by
  induction h with
  | start => exact ⟨[], rfl, rfl, rfl⟩
  | abort h hkeys _ _ ih =>
    obtain ⟨as, hattempts, hmade, hops⟩ := ih
    exact ⟨as, hattempts.trans hkeys.symm, hmade, hops⟩
  | @step trace s t op reply h _ hop ih =>
    obtain ⟨as, hattempts, hmade, hops⟩ := ih
    refine ⟨as ++ [(op, s.clock)], ?_, ?_, by simp [hops]⟩
    · rw [attempts_append, hattempts]
      exact congrArg Session.keys (Txn.leaves_of_ok hop)
    · rw [made_append, hmade, hattempts, mutations_snoc, made, made, List.append_nil]
      cases op with
      | mutate m =>
        obtain ⟨n, hm, -⟩ := Txn.map_eq_ok.mp hop
        simp [Op.made, Step.mutation?, Txn.succeeds, hm]
      | _ => rfl

open Registry

/-- The registry as of a version is what the first so many successful mutations have made of the
empty registry, or all of them where there are fewer. Later operations, whether they succeed or
fail, change neither the registry of a version already reached nor the data schema of a revision
once it has been found. -/
theorem history_frozen (as more : List (Op × Clock)) (hclear : ClearOfRegistry (as ++ more)) :
    (∀ v, atVersion (attempts .empty as) v = applyAll .empty ((made .empty as).take v) ∧
      ∀ r, atVersion (attempts .empty as) v = .ok r → r.vsn = min v (made .empty as).length) ∧
    (∀ v ≤ (made .empty as).length,
      atVersion (attempts .empty (as ++ more)) v = atVersion (attempts .empty as) v) ∧
    ∀ entity name number schema,
      eventSchema (attempts .empty as) entity name number = .ok schema →
        eventSchema (attempts .empty (as ++ more)) entity name number = .ok schema := by
  have hbefore := kept_attempts (fun a ha => hclear a (List.mem_append_left more ha)) kept_empty
  have hafter := kept_attempts hclear kept_empty
  rw [made_append, List.nil_append] at hafter
  rw [List.nil_append] at hbefore
  exact frozen_of_kept hbefore hafter

/-- A run of transactions keeps the changes of the mutations that have succeeded and were not
aborted. -/
theorem kept_of_reached {clock : Clock} {trace : List Step} {s : Session} (h : Reached clock trace s)
    (hclear : Clear trace registryItem) : Kept s.keys (mutations trace) := by
  obtain ⟨as, hkeys, hmade, hops⟩ := exists_attempts h
  have hclear' : ClearOfRegistry as := by
    intro a ha item hitem
    have hop : a.1 ∈ trace.map Step.op := hops ▸ List.mem_map_of_mem ha
    obtain ⟨step, hstep, heq⟩ := List.mem_map.mp hop
    exact (hclear step hstep item (heq ▸ hitem)).1
  have hkept := kept_attempts hclear' kept_empty
  rwa [hkeys, hmade, List.nil_append] at hkept

/-- The same for runs of transactions: those that come later, aborted or not, change neither the
registry of a version already reached nor the data schema of a revision once it has been found. -/
theorem result_frozen (txns more : List (List Op)) (clock : Clock)
    (hclear : Clear (trace (txns ++ more) clock) registryItem) :
    (∀ v, atVersion (result txns clock) v =
        applyAll .empty ((mutations (trace txns clock)).take v) ∧
      ∀ r, atVersion (result txns clock) v = .ok r →
        r.vsn = min v (mutations (trace txns clock)).length) ∧
    (∀ v ≤ (mutations (trace txns clock)).length,
      atVersion (result (txns ++ more) clock) v = atVersion (result txns clock) v) ∧
    ∀ entity name number schema,
      eventSchema (result txns clock) entity name number = .ok schema →
        eventSchema (result (txns ++ more) clock) entity name number = .ok schema := by
  have hafter := kept_of_reached (reached (txns ++ more) clock) hclear
  obtain ⟨later, hlater⟩ := trace_append txns more clock
  rw [hlater] at hclear hafter
  have hbefore := kept_of_reached (reached txns clock) fun step hstep =>
    hclear step (List.mem_append_left later hstep)
  rw [mutations, List.filterMap_append] at hafter
  exact frozen_of_kept hbefore hafter

def eachAttempted (ms : List Mutation) : List (Op × Clock) :=
  ms.map fun m => (.mutate m, .steady 5 1)

theorem clearOfRegistry_eachAttempted (ms : List Mutation) : ClearOfRegistry (eachAttempted ms) := by
  intro a ha item hitem
  obtain ⟨m, -, rfl⟩ := List.mem_map.mp ha
  cases hitem
  exact ItemId.not_continues_self registryItem

/-- After these, `recreation` deletes the event type and creates it again. -/
def creation : List Mutation := [.createEntityType "a", .createEventType "a" "b" .int]

/-- The first of these fails, since the entity type is there. -/
def recreation : List Mutation :=
  [.createEntityType "a", .deleteEventType "a" "b", .createEventType "a" "b" .string]

theorem history_frozen_recreation :
    ClearOfRegistry (eachAttempted creation ++ eachAttempted recreation) ∧
    (made .empty (eachAttempted creation)).length = 2 ∧
    (made .empty (eachAttempted creation ++ eachAttempted recreation)).length = 4 ∧
    (∃ r, atVersion (attempts .empty (eachAttempted creation)) 2 = .ok r ∧ r.vsn = 2) ∧
    atVersion (attempts .empty (eachAttempted creation ++ eachAttempted recreation)) 2 =
      atVersion (attempts .empty (eachAttempted creation)) 2 ∧
    ∃ schema, schema.kind = "int" ∧
      eventSchema (attempts .empty (eachAttempted creation ++ eachAttempted recreation)) "a" "b" 0 =
        .ok schema := by
  have hclear : ClearOfRegistry (eachAttempted creation ++ eachAttempted recreation) := by
    rw [eachAttempted, eachAttempted, ← List.map_append]
    exact clearOfRegistry_eachAttempted (creation ++ recreation)
  have htwo : (made .empty (eachAttempted creation)).length = 2 := by decide +kernel
  obtain ⟨hversions, hsame, hstays⟩ := history_frozen _ _ hclear
  obtain ⟨r, hr, -⟩ := exists_ok_of_any (show (atVersion (attempts .empty
    (eachAttempted creation)) 2).toOption.any (fun r => r.vsn = 2) = true by decide +kernel)
  obtain ⟨schema, hread, hint⟩ := exists_ok_of_any
    (show (eventSchema (attempts .empty (eachAttempted creation)) "a" "b" 0).toOption.any
      (fun schema => schema.kind = "int") = true by decide +kernel)
  refine ⟨hclear, htwo, by decide +kernel, ⟨r, hr, ?_⟩, hsame 2 htwo.ge, schema, by simpa using hint,
    hstays _ _ _ _ hread⟩
  rw [(hversions 2).2 r hr, htwo]
  rfl

end Run
end Chronicle
