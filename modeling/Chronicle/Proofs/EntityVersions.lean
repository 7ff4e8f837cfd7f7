import Mathlib
import Chronicle.Proofs.ChangeSteps
import Chronicle.Proofs.RegistryVersion

/-!
# Versions of entity types

The version of an entity type starts at 0 and moves by one at a time, so the first moment at which
it is high enough is the moment at which it is exact. Versions start over when an entity type is
created again; a reading by version then still ends at the first moment, wherever the entity type
stands now. No version of an entity type comes up to that of the registry, so a reading by the
latter goes through the whole history.
-/
namespace Chronicle

namespace Registry

variable {r : Registry} {name : String} {vsn : Nat} {ms : List Mutation}

/-! ## Versions one change after the other -/

/-- Each entity type has a lower version than the registry. -/
def Behind (r : Registry) : Prop := ∀ name e, r.entity? name = some e → e.vsn < r.vsn

/-- One change. A version is that of an entity type just created, or at most one above the version
that the entity type had. -/
theorem vsn_apply_le {c : Change} {e : EntityType Payload.Schema} (hnamed : r.Named)
    (h : (c.apply r).1.entity? name = some e) :
    e.vsn = 0 ∨ ∃ old, r.entity? name = some old ∧ e.vsn ≤ old.vsn + 1 := by
  rcases Change.vsn_entity_apply hnamed h with ⟨-, hzero⟩ | ⟨-, old, hold, hvsn⟩
  · exact .inl hzero
  · refine .inr ⟨old, hold, ?_⟩
    split_ifs at hvsn
    · exact hvsn.le
    · omega

theorem behind_empty : empty.Behind := by
  intro name e h
  simp [entity?, empty] at h

theorem Behind.apply (h : r.Behind) (hnamed : r.Named) (c : Change) : (c.apply r).1.Behind := by
  intro name e he
  rw [vsn_apply]
  rcases vsn_apply_le hnamed he with hzero | ⟨old, hold, hle⟩
  · omega
  · have hlt := h name old hold
    omega

theorem Behind.replay (h : r.Behind) (hnamed : r.Named) (ms : List Mutation) :
    (replay r ms).Behind := by
  induction ms generalizing r with
  | nil => exact h
  | cons m ms ih => exact ih (h.apply hnamed m.change) (hnamed.apply m.change)

/-! ## The first moment of a version -/

/-- The entity type is there, with this version or a higher one. -/
def Reaches (name : String) (vsn : Nat) (r : Registry) : Prop :=
  ∃ e, r.entity? name = some e ∧ vsn ≤ e.vsn

/-- What a reading by version asks after each change. -/
def reaches (name : String) (vsn : Nat) (r : Registry) : Bool :=
  match r.entity? name with
  | some e => vsn ≤ e.vsn
  | none => false

theorem reaches_iff : reaches name vsn r = true ↔ Reaches name vsn r := by
  unfold reaches Reaches
  cases r.entity? name with
  | none => simp
  | some e => simp

theorem reaches_eq_false_iff : reaches name vsn r = false ↔ ¬ Reaches name vsn r := by
  rw [← reaches_iff, Bool.not_eq_true]

theorem not_reaches_empty : ¬ Reaches name vsn empty := by
  rintro ⟨e, he, -⟩
  simp [entity?, empty] at he

/-- Where a change reaches a version that was not reached before, it reaches it exactly. -/
theorem vsn_eq_of_reaches {m : Mutation} (hnamed : r.Named) (hnot : ¬ Reaches name vsn r)
    (h : Reaches name vsn (m.change.apply r).1) :
    ∃ e, (m.change.apply r).1.entity? name = some e ∧ e.vsn = vsn := by
  obtain ⟨e, he, hle⟩ := h
  refine ⟨e, he, ?_⟩
  rcases vsn_apply_le hnamed he with hzero | ⟨old, hold, hstep⟩
  · omega
  · have hlt : old.vsn < vsn := by
      by_contra hge
      exact hnot ⟨old, hold, by omega⟩
    omega

/-- A registry that has reached a version has as many changes behind it, and one more. -/
theorem Reaches.lt_length (h : Reaches name vsn (replay empty ms)) : vsn < ms.length := by
  obtain ⟨e, he, hle⟩ := h
  have hlt := behind_empty.replay named_empty ms name e he
  rw [vsn_replay] at hlt
  exact lt_of_le_of_lt hle (lt_of_lt_of_eq hlt (Nat.zero_add _))

/-! ## Readings -/

/-- A reading that never stops goes through the whole history. -/
theorem readUntil_of_never {stop : Registry → Bool}
    (h : ∀ past, past <+: ms → stop (replay r past) = false) :
    readUntil stop r ms = readUntil (fun _ => false) r ms := by
  induction ms generalizing r with
  | nil => rfl
  | cons m ms ih =>
    have hgoes : stop r = false := h [] List.nil_prefix
    rw [readUntil_cons hgoes, readUntil_cons rfl]
    rw [ih fun past hpast => h (m :: past) (List.prefix_cons_iff.mpr (.inr ⟨past, rfl, hpast⟩))]

variable {keys : KeySpace}

theorem fold_of_kept (h : Kept keys ms) (stop : Registry → Bool) :
    fold keys stop = readUntil stop empty ms := by
  obtain ⟨stream, hholds, hwritten⟩ := h
  exact fold_eq_readUntil hholds hwritten stop

theorem replay_of_kept (h : Kept keys ms) (hcurrent : current keys = .ok r) :
    r = replay empty ms := by
  rw [current, fold_of_kept h] at hcurrent
  exact replay_of_readUntil hcurrent

theorem entityType_eq (keys : KeySpace) (name : String) (vsn : Nat) :
    entityType keys name vsn = fold keys (reaches name vsn) >>= fun r => requireEntity r name := rfl

/-- The counter of the registry's item may lag behind by the event of its creation, no more. -/
theorem latestVersion_of_kept (h : Kept keys ms) :
    ∃ n, latestVersion keys = .ok n ∧ ms.length ≤ n + 1 := by
  obtain ⟨stream, hholds, hwritten⟩ := h
  cases stream with
  | none =>
    rw [show ms = [] from hwritten]
    exact ⟨0, latestVersion_of_not_isThere hholds, Nat.zero_le _⟩
  | some events =>
    obtain ⟨hversion, -⟩ := hholds
    obtain ⟨quiet, rest, rfl, -, hrecords⟩ := hwritten
    refine ⟨(quiet ++ rest).length - 1, ?_, ?_⟩
    · rw [latestVersion, (Item.isThere_of_version hversion).1, hversion]
      rfl
    · rw [List.length_append, hrecords.length_eq]
      omega

/-- The shortest beginning of the history that has reached the version. -/
theorem exists_shortest (hreaches : Reaches name vsn (replay empty ms)) :
    ∃ before m after e, ms = before ++ m :: after ∧
      (replay empty (before ++ [m])).entity? name = some e ∧ e.vsn = vsn ∧
      ∀ past, past <+: before → ¬ Reaches name vsn (replay empty past) := by
  obtain ⟨before, m, after, hsplit, hfirst, hbefore⟩ :=
    exists_first (p := Reaches name vsn) not_reaches_empty hreaches
  have hnamed := named_empty.replay before
  rw [replay_append] at hfirst
  obtain ⟨e, he, hvsn⟩ := vsn_eq_of_reaches hnamed (hbefore before (List.prefix_refl _)) hfirst
  exact ⟨before, m, after, e, hsplit, by rw [replay_append]; exact he, hvsn, hbefore⟩

/-- Where the history reaches the version, the reading is of the first moment of it. -/
theorem fold_reaches {before after : List Mutation} {m : Mutation}
    {e : EntityType Payload.Schema} (hkept : Kept keys (before ++ m :: after))
    (hcurrent : current keys = .ok r)
    (hbefore : ∀ past, past <+: before → ¬ Reaches name vsn (replay empty past))
    (he : (replay empty (before ++ [m])).entity? name = some e) (hvsn : e.vsn = vsn) :
    fold keys (reaches name vsn) = .ok (replay empty (before ++ [m])) := by
  rw [current, fold_of_kept hkept] at hcurrent
  rw [fold_of_kept hkept]
  exact readUntil_first hcurrent
    (fun past hpast => reaches_eq_false_iff.mpr (hbefore past hpast))
    (reaches_iff.mpr ⟨e, he, hvsn.ge⟩)

theorem entityType_of_never (hkept : Kept keys ms) (hcurrent : current keys = .ok r)
    (hnever : ∀ past, past <+: ms → ¬ Reaches name vsn (replay empty past)) :
    entityType keys name vsn = requireEntity r name := by
  rw [current, fold_of_kept hkept] at hcurrent
  rw [entityType_eq, fold_of_kept hkept,
    readUntil_of_never fun past hpast => reaches_eq_false_iff.mpr (hnever past hpast), hcurrent]
  rfl

/-- With the version of the registry or a higher one, and also with the one below it, a reading
goes through the whole history. -/
theorem entityType_of_le (hkept : Kept keys ms) (hcurrent : current keys = .ok r)
    (hle : ms.length ≤ vsn + 1) : entityType keys name vsn = requireEntity r name := by
  by_cases hreaches : Reaches name vsn (replay empty ms)
  · obtain ⟨before, m, after, e, rfl, he, hvsn, hbefore⟩ := exists_shortest hreaches
    -- the first moment is the last
    have hlt := Reaches.lt_length ⟨e, he, hvsn.ge⟩
    have hafter : after = [] := by
      rw [List.length_append, List.length_cons] at hle
      rw [List.length_append, List.length_singleton] at hlt
      exact List.eq_nil_of_length_eq_zero (by omega)
    rw [entityType_eq, fold_reaches hkept hcurrent hbefore he hvsn, replay_of_kept hkept hcurrent,
      hafter]
    rfl
  · apply entityType_of_never hkept hcurrent
    intro past hpast hearly
    have hlt := hearly.lt_length
    rw [hpast.eq_of_length_le (by omega)] at hearly
    exact hreaches hearly

end Registry

/-! ## The result -/

namespace Run

open Registry

/-- An entity type is read as of the shortest beginning of the history in which it is there with
this version or a higher one. Its version is then exactly the one asked for, and no later operation
changes what is read. Where no beginning of the history is such, it is read off the registry as it
stands; that is the case for the version of the registry, which is above all others. -/
theorem entityType_at_version (as more : List (Op × Clock)) (hclear : ClearOfRegistry (as ++ more))
    {r : Registry} (hcurrent : current (attempts .empty as) = .ok r) (name : String) (vsn : Nat) :
    r = replay .empty (made .empty as) ∧
    (∀ past, past <+: made .empty as → Reaches name vsn (replay .empty past) →
      ∃ first e, first <+: made .empty as ∧ (replay .empty first).entity? name = some e ∧
        e.vsn = vsn ∧
        (∀ other, other <+: made .empty as → Reaches name vsn (replay .empty other) →
          first <+: other) ∧
        entityType (attempts .empty as) name vsn = .ok e ∧
        entityType (attempts .empty (as ++ more)) name vsn = .ok e) ∧
    ((∀ past, past <+: made .empty as → ¬ Reaches name vsn (replay .empty past)) →
      entityType (attempts .empty as) name vsn = requireEntity r name) ∧
    (∃ n, latestVersion (attempts .empty as) = .ok n ∧
      entityType (attempts .empty as) name n = requireEntity r name) ∧
    ∀ other e, r.entity? other = some e → e.vsn < r.vsn := by
  have hkept := kept_attempts (fun a ha => hclear a (List.mem_append_left more ha)) kept_empty
  have hlater := kept_attempts hclear kept_empty
  rw [made_append, List.nil_append] at hlater
  rw [List.nil_append] at hkept
  have hreplay := replay_of_kept hkept hcurrent
  refine ⟨hreplay, fun past hpast hreaches => ?_, entityType_of_never hkept hcurrent, ?_, ?_⟩
  · obtain ⟨before, m, after, e, rfl, he, hvsn, hbefore⟩ := exists_shortest hreaches
    obtain ⟨rest, hmade⟩ := hpast
    rw [List.append_assoc, List.cons_append] at hmade
    have hsplit : made .empty as = (before ++ [m]) ++ (after ++ rest) := by
      rw [← hmade, List.append_assoc, List.singleton_append]
    have hfold := fold_reaches (hmade ▸ hkept) hcurrent hbefore he hvsn
    have hstop : reaches name vsn (replay .empty (before ++ [m])) = true :=
      reaches_iff.mpr ⟨e, he, hvsn.ge⟩
    have hread : requireEntity (replay .empty (before ++ [m])) name = .ok e := by
      rw [requireEntity, he]
    refine ⟨before ++ [m], e, ⟨_, hsplit.symm⟩, he, hvsn, fun other hother hreaches => ?_, ?_, ?_⟩
    · rcases List.prefix_or_prefix_of_prefix hother ⟨_, hsplit.symm⟩ with hshort | hlong
      · rcases List.prefix_concat_iff.mp hshort with rfl | hshort
        · exact List.prefix_refl _
        · exact absurd hreaches (hbefore other hshort)
      · exact hlong
    · rw [entityType_eq, hfold]
      exact hread
    · rw [fold_of_kept hkept] at hfold
      rw [entityType_eq, fold_of_kept hlater, readUntil_append hfold hstop]
      exact hread
  · obtain ⟨n, hversion, hle⟩ := latestVersion_of_kept hkept
    exact ⟨n, hversion, entityType_of_le hkept hcurrent hle⟩
  · rw [hreplay]
    exact behind_empty.replay named_empty _

/-- An entity type that has had a version and is created again. -/
def restarted : List Mutation :=
  [.createEntityType "a", .createEventType "a" "b" .int, .deleteEntityType "a",
    .createEntityType "a"]

/-- Version 1 is read off the entity type that has been deleted, whatever happens to the new one,
and version 4, which is that of the registry, off the new one. -/
theorem entityType_restarted :
    ∃ r first last, current (attempts .empty (eachAttempted restarted)) = .ok r ∧
      r.entity? "a" = some last ∧ last.vsn = 0 ∧ first.vsn = 1 ∧
      entityType (attempts .empty (eachAttempted restarted)) "a" 1 = .ok first ∧
      entityType (attempts .empty (eachAttempted restarted ++
        eachAttempted [.createEventType "a" "b" .string])) "a" 1 = .ok first ∧
      entityType (attempts .empty (eachAttempted restarted)) "a" 4 = .ok last ∧
      last.vsn < r.vsn := by
  have hclear : ClearOfRegistry (eachAttempted restarted ++
      eachAttempted [.createEventType "a" "b" .string]) := by
    rw [eachAttempted, eachAttempted, ← List.map_append]
    exact clearOfRegistry_eachAttempted _
  obtain ⟨r, hcurrent, hlast⟩ := exists_ok_of_any
    (show (current (attempts .empty (eachAttempted restarted))).toOption.any
      (fun r => (r.entity? "a").any fun e => e.vsn = 0) = true by decide +kernel)
  obtain ⟨last, hlast, hzero⟩ := (Option.any_eq_true _ _).mp hlast
  have hreaches : Reaches "a" 1 (replay .empty ((made .empty (eachAttempted restarted)).take 2)) :=
    reaches_iff.mp (by decide +kernel)
  have hversion : latestVersion (attempts .empty (eachAttempted restarted)) = .ok 4 :=
    Outcome.eq_ok_of_toOption (by decide +kernel)
  obtain ⟨-, hfirst, -, ⟨n, hn, hread⟩, hbehind⟩ :=
    entityType_at_version (eachAttempted restarted) _ hclear hcurrent "a" 1
  obtain ⟨_, first, -, -, hone, -, hbefore, hafter⟩ := hfirst _ (List.take_prefix _ _) hreaches
  rw [hversion, Except.ok.injEq] at hn
  rw [← hn, requireEntity, hlast] at hread
  exact ⟨r, first, last, hcurrent, hlast, by simpa using hzero, hone, hbefore, hafter, hread,
    hbehind "a" last hlast⟩

end Run
end Chronicle
