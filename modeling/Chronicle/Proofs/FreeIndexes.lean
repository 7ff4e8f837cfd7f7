import Mathlib
import Chronicle.Proofs.Failures
import Chronicle.Proofs.LogSlices

/-!
# The index of an append

Imports and replication may leave any pattern of taken indexes at a timestamp. An append tries the
65536 indexes one after the other and takes the first free one; it fails only where none is free.
-/
namespace Chronicle

theorem KeySpace.Marked.contains_eq {keys : KeySpace} (h : keys.Marked) {key : Bytes}
    (hkey : key ≠ []) : keys.contains key = .ok (keys.stored? key).isSome := by
  cases hstored : keys.stored? key with
  | none => exact (contains_eq_false_iff hkey).mpr hstored
  | some stored =>
    cases stored with
    | nil => exact absurd hstored (h key)
    | cons mark value => exact contains_eq_true hkey hstored

namespace Log

variable {keys : KeySpace} {p : UInt8} {time : UInt64} {count index : Nat}

theorem freeIndex_of_taken (hmarked : keys.Marked)
    (h : ∀ i, index ≤ i → i < index + count →
      keys.stored? (Key.log ⟨p, time, UInt16.ofNat i⟩) ≠ none) :
    freeIndex keys p time count index = .error (.state (.noFreeIndex p time)) := by
  induction count generalizing index with
  | zero => rfl
  | succ count ih =>
    have htaken : keys.contains (Key.log ⟨p, time, UInt16.ofNat index⟩) = .ok true := by
      rw [hmarked.contains_eq (Key.log_ne_nil _)]
      exact congrArg _ (Option.isSome_iff_ne_none.mpr (h index le_rfl (by omega)))
    have hrest : freeIndex keys p time count (index + 1) = .error (.state (.noFreeIndex p time)) :=
      ih fun i hle hlt => h i (by omega) (by omega)
    simp [freeIndex, htaken, hrest, bind, Except.bind]

theorem exists_freeIndex (hmarked : keys.Marked) {i : Nat} (hle : index ≤ i)
    (hlt : i < index + count) (hfree : keys.stored? (Key.log ⟨p, time, UInt16.ofNat i⟩) = none) :
    ∃ id, freeIndex keys p time count index = .ok id := by
  induction count generalizing index with
  | zero => omega
  | succ count ih =>
    have hcontains := hmarked.contains_eq (Key.log_ne_nil ⟨p, time, UInt16.ofNat index⟩)
    cases hstored : keys.stored? (Key.log ⟨p, time, UInt16.ofNat index⟩) with
    | none =>
      exact ⟨⟨p, time, UInt16.ofNat index⟩, by
        simp [freeIndex, hcontains, hstored, bind, Except.bind, pure, Except.pure]⟩
    | some stored =>
      have hne : index ≠ i := by
        rintro rfl
        rw [hfree] at hstored
        cases hstored
      have hnext : index + 1 ≤ i := by omega
      obtain ⟨id, hid⟩ := ih hnext (by omega)
      exact ⟨id, by simp [freeIndex, hcontains, hstored, hid, bind, Except.bind]⟩

variable {s : Session}

/-- An append goes through wherever an index is free. -/
theorem putAt_of_free (hmarked : s.keys.Marked) {i : UInt16}
    (hfree : s.keys.stored? (Key.log ⟨p, time, i⟩) = none) (event : LogEvent) :
    ∃ j t, putAt p time event s = .ok ⟨p, time, j⟩ t := by
  have hlt : i.toNat < 0 + indexCount := by
    have h := i.toNat_lt
    rw [indexCount]
    omega
  rw [← UInt16.ofNat_toNat (x := i)] at hfree
  obtain ⟨⟨p', time', j⟩, hid⟩ := exists_freeIndex hmarked (Nat.zero_le _) hlt hfree
  obtain ⟨rfl, rfl, -⟩ := freeIndex_eq_ok (by simp [indexCount]) hid
  refine ⟨j, { s with
    keys := s.keys.insert (Key.log ⟨p', time', j⟩) (event.mark :: event.payload) }, ?_⟩
  refine Txn.bind_eq_ok.mpr ⟨_, s, Txn.query_eq_ok.mpr ⟨hid, rfl⟩, ?_⟩
  refine Txn.bind_eq_ok.mpr ⟨(), _, Txn.set_eq_ok.mpr ⟨⟨Key.log_ne_nil _, ?_⟩, rfl⟩, rfl⟩
  rw [Key.length_log]
  decide

theorem putAt_of_taken (hmarked : s.keys.Marked)
    (h : ∀ i, s.keys.stored? (Key.log ⟨p, time, i⟩) ≠ none) (event : LogEvent) :
    putAt p time event s = .error (.state (.noFreeIndex p time)) s := by
  have hfull : freeIndex s.keys p time indexCount 0 = .error (.state (.noFreeIndex p time)) :=
    freeIndex_of_taken hmarked fun i _ _ => h _
  refine Txn.bind_eq_error.mpr (.inl ?_)
  rw [Txn.query, hfull]

/-- An append at the time of the clock, which it reads first. -/
theorem put_eq_putAt (p : UInt8) (event : LogEvent) (s : Session) :
    put p event s =
      if s.clock.reading ≤ Clock.limit then
        putAt p (UInt64.ofNat s.clock.reading) event { s with clock := s.clock.tick }
      else .error (.state .clockOutOfRange) { s with clock := s.clock.tick } := by
  change EStateM.bind Txn.now _ s = _
  unfold EStateM.bind Txn.now
  dsimp only
  split_ifs with h hlimit hlimit
  · rfl
  · exact absurd h hlimit
  · exact absurd hlimit h
  · rfl

/-- An append takes no notice of the identity that the event comes with. -/
theorem putAt_with_id (p : UInt8) (time : UInt64) (e : LogEvent) (id : EventId) :
    putAt p time { e with id := id } = putAt p time e := rfl

theorem put_with_id (p : UInt8) (e : LogEvent) (id : EventId) :
    put p { e with id := id } = put p e := by
  funext s
  rw [put_eq_putAt, put_eq_putAt, putAt_with_id]

/-- Where an index is free at the timestamp, an append takes the least one: the event can be got under
the new identity, and no other key has changed. Where all indexes are taken it is refused and changes
nothing. What identity the event came with makes no difference. An append at the time of the clock is
an append at that timestamp, and a clock out of range stops it before it has written anything. -/
theorem append_takes_least_index (s : Session) (hmarked : s.keys.Marked) (p : UInt8) (time : UInt64)
    (e : LogEvent) :
    ((∃ i, s.keys.stored? (Key.log ⟨p, time, i⟩) = none) →
      ∃ i t, putAt p time e s = .ok ⟨p, time, i⟩ t ∧
        s.keys.stored? (Key.log ⟨p, time, i⟩) = none ∧
        (∀ j < i, s.keys.stored? (Key.log ⟨p, time, j⟩) ≠ none) ∧
        get t.keys ⟨p, time, i⟩ = .ok { e with id := ⟨p, time, i⟩ } ∧
        (∀ key, key ≠ Key.log ⟨p, time, i⟩ → t.keys.stored? key = s.keys.stored? key) ∧
        t.clock = s.clock) ∧
    ((∀ i, s.keys.stored? (Key.log ⟨p, time, i⟩) ≠ none) →
      putAt p time e s = .error (.state (.noFreeIndex p time)) s) ∧
    (∀ id, putAt p time { e with id := id } s = putAt p time e s ∧
      put p { e with id := id } s = put p e s) ∧
    put p e s =
      if s.clock.reading ≤ Clock.limit then
        putAt p (UInt64.ofNat s.clock.reading) e { s with clock := s.clock.tick }
      else .error (.state .clockOutOfRange) { s with clock := s.clock.tick } := by
  refine ⟨?_, fun h => putAt_of_taken hmarked h e, fun id => ?_, put_eq_putAt p e s⟩
  · rintro ⟨i, hi⟩
    obtain ⟨j, t, hput⟩ := putAt_of_free hmarked hi e
    obtain ⟨-, -, ⟨hfree, hleast⟩, rfl⟩ := putAt_eq_ok hput
    have hhas : Has (s.keys.insert (Key.log ⟨p, time, j⟩) (e.mark :: e.payload))
        { e with id := ⟨p, time, j⟩ } := KeySpace.stored?_insert_self _ _ _
    have hget := get_of_has hhas
    exact ⟨j, _, hput, hfree, hleast, hget,
      fun key hkey => KeySpace.stored?_insert_of_ne _ _ hkey.symm, rfl⟩
  · rw [putAt_with_id, put_with_id]
    exact ⟨rfl, rfl⟩

namespace FreeIndexes

/-- A store with an event under each identity. -/
def holding : List EventId → KeySpace
  | [] => .empty
  | id :: ids => (holding ids).insert (Key.log id) [Kind.entity]

theorem stored?_holding (ids : List EventId) (key : Bytes) :
    (holding ids).stored? key = if ∃ id ∈ ids, Key.log id = key then some [Kind.entity] else none := by
  induction ids with
  | nil => simp [holding]
  | cons id ids ih => by_cases h : Key.log id = key <;> simp [holding, KeySpace.stored?_insert, h, ih]

theorem marked_holding (ids : List EventId) : (holding ids).Marked := by
  intro key
  rw [stored?_holding]
  split_ifs <;> simp

def crowdedIds : List EventId :=
  [⟨1, 7, 0⟩, ⟨1, 7, 1⟩, ⟨1, 7, 3⟩] ++ (List.range indexCount).map fun i => ⟨1, 9, UInt16.ofNat i⟩

/-- At time 7 the indexes 0, 1 and 3 are taken, and at time 9, which the clock shows, all of them. -/
def crowded : Session := ⟨holding crowdedIds, .steady 9 1⟩

theorem stored?_crowded (id : EventId) :
    crowded.keys.stored? (Key.log id) = none ↔ id ∉ crowdedIds := by
  simp [crowded, stored?_holding]

theorem mem_crowdedIds_full (i : UInt16) : (⟨1, 9, i⟩ : EventId) ∈ crowdedIds := by
  have hlt := i.toNat_lt
  refine List.mem_append_right _ (List.mem_map.mpr ⟨i.toNat, List.mem_range.mpr ?_, ?_⟩)
  · rw [indexCount]
    omega
  · rw [UInt16.ofNat_toNat]

theorem mem_crowdedIds_gap (i : UInt16) :
    (⟨1, 7, i⟩ : EventId) ∈ crowdedIds ↔ i = 0 ∨ i = 1 ∨ i = 3 := by
  simp [crowdedIds]

/-- An append at time 7 gets index 2, and one at the time of the clock none. -/
theorem append_takes_least_index_crowded :
    crowded.keys.Marked ∧
      (∃ t, putAt 1 7 ⟨Kind.entity, ⟨1, 7, 3⟩, [70]⟩ crowded = .ok ⟨1, 7, 2⟩ t ∧
        get t.keys ⟨1, 7, 2⟩ = .ok ⟨Kind.entity, ⟨1, 7, 2⟩, [70]⟩) ∧
      ∃ t, put 1 (.new Kind.entity [70]) crowded = .error (.state (.noFreeIndex 1 9)) t := by
  have hmarked : crowded.keys.Marked := marked_holding _
  have hfree : crowded.keys.stored? (Key.log ⟨1, 7, 2⟩) = none := by
    rw [stored?_crowded, mem_crowdedIds_gap]
    decide
  obtain ⟨hleast, -, -⟩ :=
    append_takes_least_index crowded hmarked 1 7 ⟨Kind.entity, ⟨1, 7, 3⟩, [70]⟩
  obtain ⟨-, -, -, hclock⟩ := append_takes_least_index crowded hmarked 1 0 (.new Kind.entity [70])
  obtain ⟨i, t, hput, hi, hbelow, hget, -⟩ := hleast ⟨2, hfree⟩
  refine ⟨hmarked, ?_, ?_⟩
  · rw [stored?_crowded, mem_crowdedIds_gap] at hi
    have htwo : i = 2 := by
      rcases Nat.lt_trichotomy i.toNat 2 with hlt | heq | hgt
      · have hsmall : i = 0 ∨ i = 1 := by
          rw [← UInt16.toNat_inj, ← UInt16.toNat_inj]
          change i.toNat = 0 ∨ i.toNat = 1
          omega
        exact absurd (hsmall.imp_right .inl) hi
      · exact UInt16.toNat_inj.mp heq
      · exact absurd hfree (hbelow 2 (UInt16.lt_iff_toNat_lt.mpr hgt))
    subst htwo
    exact ⟨t, hput, hget⟩
  · rw [if_pos (by decide)] at hclock
    obtain ⟨-, hfull, -⟩ := append_takes_least_index { crowded with clock := crowded.clock.tick }
      hmarked 1 9 (.new Kind.entity [70])
    refine ⟨_, hclock.trans (hfull fun i => ?_)⟩
    exact fun hnone => (stored?_crowded _).mp hnone (mem_crowdedIds_full i)

end FreeIndexes

end Log
end Chronicle
