import Mathlib
import Chronicle.Replication
import Chronicle.Proofs.Transactions

/-!
# What the operations write

For each operation on the log and on an item: what its success says about the session before,
and what exactly it has written.
-/
namespace Chronicle

variable {s t : Session}

/-! ## The log -/

namespace Log

/-- The identity is free, and those before it at its timestamp are not. -/
def LeastFree (keys : KeySpace) (id : EventId) : Prop :=
  keys.stored? (Key.log id) = none ∧
    ∀ j < id.index, keys.stored? (Key.log ⟨id.partition, id.timestamp, j⟩) ≠ none

theorem freeIndex_eq_ok {keys : KeySpace} {partition : UInt8} {timestamp : UInt64}
    {count index : Nat} {id : EventId} (hcount : index + count ≤ indexCount)
    (h : freeIndex keys partition timestamp count index = .ok id) :
    id.partition = partition ∧ id.timestamp = timestamp ∧ index ≤ id.index.toNat ∧
      keys.stored? (Key.log id) = none ∧
      ∀ j : UInt16, index ≤ j.toNat → j < id.index →
        keys.stored? (Key.log ⟨partition, timestamp, j⟩) ≠ none := by
  induction count generalizing index with
  | zero => cases h
  | succ count ih =>
    have hindex : (UInt16.ofNat index).toNat = index :=
      UInt16.toNat_ofNat_of_lt' (by simp only [indexCount] at hcount; simp [UInt16.size]; omega)
    unfold freeIndex at h
    dsimp only at h
    obtain ⟨taken, hfree, h⟩ := Outcome.bind_eq_ok.mp h
    cases taken with
    | false =>
      cases h
      refine ⟨rfl, rfl, hindex.ge, ?_, ?_⟩
      · exact (KeySpace.contains_eq_false_iff (Key.log_ne_nil _)).mp hfree
      · intro j hj hlt
        rw [UInt16.lt_iff_toNat_lt, hindex] at hlt
        omega
    | true =>
      obtain ⟨hpartition, htime, hle, hnone, hbefore⟩ := ih (by omega) h
      refine ⟨hpartition, htime, by omega, hnone, ?_⟩
      intro j hj hlt
      rcases Nat.eq_or_lt_of_le hj with hj | hj
      · intro hstored
        have hj' : UInt16.ofNat index = j := by rw [hj, UInt16.ofNat_toNat]
        rw [hj', (KeySpace.contains_eq_false_iff (Key.log_ne_nil _)).mpr
          hstored] at hfree
        cases hfree
      · exact hbefore j hj hlt

theorem putAt_eq_ok {partition : UInt8} {timestamp : UInt64} {event : LogEvent} {id : EventId}
    (h : putAt partition timestamp event s = .ok id t) :
    id.partition = partition ∧ id.timestamp = timestamp ∧ LeastFree s.keys id ∧
      t = { s with keys := s.keys.insert (Key.log id) (event.mark :: event.payload) } := by
  obtain ⟨found, u, hquery, h⟩ := Txn.bind_eq_ok.mp h
  obtain ⟨hfree, rfl⟩ := Txn.query_eq_ok.mp hquery
  obtain ⟨_, v, hset, h⟩ := Txn.bind_eq_ok.mp h
  obtain ⟨rfl, rfl⟩ := Txn.pure_eq_ok.mp h
  obtain ⟨hpartition, htime, -, hnone, hbefore⟩ := freeIndex_eq_ok (by simp [indexCount]) hfree
  refine ⟨hpartition, htime, ⟨hnone, fun j hj => ?_⟩, (Txn.set_eq_ok.mp hset).2⟩
  rw [hpartition, htime]
  exact hbefore j (Nat.zero_le _) hj

theorem put_eq_ok {partition : UInt8} {event : LogEvent} {id : EventId}
    (h : put partition event s = .ok id t) :
    s.clock.reading ≤ Clock.limit ∧ id.partition = partition ∧
      id.timestamp = UInt64.ofNat s.clock.reading ∧ LeastFree s.keys id ∧
      t = ⟨s.keys.insert (Key.log id) (event.mark :: event.payload), s.clock.tick⟩ := by
  obtain ⟨time, u, hnow, h⟩ := Txn.bind_eq_ok.mp h
  obtain ⟨hlimit, rfl, rfl⟩ := Txn.now_eq_ok.mp hnow
  obtain ⟨hpartition, htime, hfree, rfl⟩ := putAt_eq_ok h
  exact ⟨hlimit, hpartition, htime, hfree, rfl⟩

end Log

/-! ## The index of an item -/

namespace Item

theorem setVersion_eq_ok {item : ItemId} {n : Nat} {u : Unit} (h : setVersion item n s = .ok u t) :
    n < Bytes.capacity 8 ∧ t = { s with
      keys := s.keys.insert (Key.version item) (0 :: Counter.encode (UInt64.ofNat n)) } := by
  unfold setVersion at h
  split_ifs at h with hn
  · exact ⟨hn, (Txn.set_eq_ok.mp h).2⟩
  · exact absurd h Txn.refuse_ne_ok

theorem setList_eq_ok {α : Type} [Packed α] {key : Bytes} {xs : List α} {u : Unit}
    (h : setList key xs s = .ok u t) :
    ∃ bytes, record xs = .ok bytes ∧ t = { s with keys := s.keys.insert key (0 :: bytes) } := by
  obtain ⟨bytes, v, hlift, h⟩ := Txn.bind_eq_ok.mp h
  obtain ⟨hrecord, rfl⟩ := Txn.lift_eq_ok.mp hlift
  exact ⟨bytes, hrecord, (Txn.set_eq_ok.mp h).2⟩

theorem recordSlot_eq_ok {item : ItemId} {slot : Nat} {id : EventId} {kind : UInt8} {u : Unit}
    (h : recordSlot item slot id kind s = .ok u t) :
    slot + 1 < Bytes.capacity 8 ∧ t = { s with
      keys := (s.keys.insert (Key.slot item (UInt64.ofNat slot)) (kind :: Key.log id)).insert
        (Key.version item) (0 :: Counter.encode (UInt64.ofNat (slot + 1))) } := by
  obtain ⟨_, v, hset, h⟩ := Txn.bind_eq_ok.mp h
  obtain ⟨-, rfl⟩ := Txn.set_eq_ok.mp hset
  exact setVersion_eq_ok h

/-- An append writes the event into the log and then points a slot at it. -/
theorem append_eq_ok {item : ItemId} {slot : Nat} {event : Event} {v : Unit}
    (h : append item slot event s = .ok v t) :
    ∃ partition payload id u, item.partition = .ok partition ∧
      (Envelope.wrap item event).encode = .ok payload ∧
      Log.put partition (.new event.kind payload) s = .ok id u ∧
      recordSlot item slot id event.kind u = .ok v t := by
  obtain ⟨partition, s₁, hlift, h⟩ := Txn.bind_eq_ok.mp h
  obtain ⟨hpartition, rfl⟩ := Txn.lift_eq_ok.mp hlift
  obtain ⟨payload, s₂, hlift, h⟩ := Txn.bind_eq_ok.mp h
  obtain ⟨hpayload, rfl⟩ := Txn.lift_eq_ok.mp hlift
  obtain ⟨id, u, hput, h⟩ := Txn.bind_eq_ok.mp h
  exact ⟨partition, payload, id, u, hpartition, hpayload, hput, h⟩

/-- An appended event makes its item exist. -/
theorem isThere_of_append {item : ItemId} {slot : Nat} {event : Event} {v : Unit}
    (h : append item slot event s = .ok v t) : isThere t.keys item = .ok true := by
  obtain ⟨partition, payload, id, u, -, -, -, h⟩ := append_eq_ok h
  obtain ⟨-, rfl⟩ := recordSlot_eq_ok h
  exact KeySpace.contains_eq_true (Key.index_ne_nil _ _ _)
    (KeySpace.stored?_insert_self _ _ _)

theorem putNext_eq_ok {item : ItemId} {event : Event} {slot : Nat} :
    putNext item event s = .ok slot t ↔
      version s.keys item = .ok slot ∧ append item slot event s = .ok () t := by
  unfold putNext
  rw [Txn.bind_eq_ok]
  constructor
  · rintro ⟨n, u, hquery, h⟩
    obtain ⟨hversion, rfl⟩ := Txn.query_eq_ok.mp hquery
    obtain ⟨_, v, happend, h⟩ := Txn.bind_eq_ok.mp h
    obtain ⟨rfl, rfl⟩ := Txn.pure_eq_ok.mp h
    exact ⟨hversion, happend⟩
  · rintro ⟨hversion, happend⟩
    refine ⟨slot, s, Txn.query_eq_ok.mpr ⟨hversion, rfl⟩, ?_⟩
    exact Txn.bind_eq_ok.mpr ⟨(), t, happend, Txn.pure_eq_ok.mpr ⟨rfl, rfl⟩⟩

theorem put_eq_ok {item : ItemId} {event : Event} {slot : Nat} :
    put item event s = .ok slot t ↔ item ≠ registryItem ∧ putNext item event s = .ok slot t := by
  unfold put
  split_ifs with h
  · simp only [h, ne_eq, not_true, false_and, iff_false]
    exact Txn.refuse_ne_ok
  · simp [h]

theorem create_eq_ok {item : ItemId} {v : Unit} (h : create item s = .ok v t) :
    ∃ u, isThere s.keys item = .ok false ∧ initIndex item s = .ok () u ∧
      append item 0 (Event.lifecycle .created []) u = .ok v t := by
  obtain ⟨there, s₁, hquery, h⟩ := Txn.bind_eq_ok.mp h
  obtain ⟨hthere, rfl⟩ := Txn.query_eq_ok.mp hquery
  obtain ⟨hnot, h⟩ := Txn.refuse_if_eq_ok.mp h
  obtain ⟨_, s₃, hlift, h⟩ := Txn.bind_eq_ok.mp h
  obtain ⟨-, rfl⟩ := Txn.lift_eq_ok.mp hlift
  obtain ⟨_, u, hinit, h⟩ := Txn.bind_eq_ok.mp h
  rw [Bool.not_eq_true] at hnot
  exact ⟨u, hnot ▸ hthere, hinit, h⟩

theorem delete_eq_ok {item : ItemId} {v : Unit} (h : delete item s = .ok v t) :
    ∃ slot u, put item (Event.lifecycle .deleted []) s = .ok slot u ∧
      teardown item u = .ok v t := by
  obtain ⟨slot, u, hput, h⟩ := Txn.bind_eq_ok.mp h
  exact ⟨slot, u, hput, h⟩

theorem addAlias_eq_ok {item aliasId : ItemId} {v : Unit} (h : addAlias item aliasId s = .ok v t) :
    ∃ slot u, put item (Event.lifecycle .aliased aliasId.encode) s = .ok slot u ∧
      link item aliasId u = .ok v t := by
  obtain ⟨taken, s₁, hquery, h⟩ := Txn.bind_eq_ok.mp h
  obtain ⟨-, rfl⟩ := Txn.query_eq_ok.mp hquery
  obtain ⟨-, h⟩ := Txn.refuse_if_eq_ok.mp h
  obtain ⟨slot, u, hput, h⟩ := Txn.bind_eq_ok.mp h
  exact ⟨slot, u, hput, h⟩

/-- An alias that is added has pointed nowhere. -/
theorem addAlias_free {item aliasId : ItemId} {v : Unit} (h : addAlias item aliasId s = .ok v t) :
    s.keys.stored? (Key.pointer aliasId) = none := by
  obtain ⟨taken, s₁, hquery, h⟩ := Txn.bind_eq_ok.mp h
  obtain ⟨hcontains, rfl⟩ := Txn.query_eq_ok.mp hquery
  obtain ⟨hnot, -⟩ := Txn.refuse_if_eq_ok.mp h
  rw [Bool.not_eq_true] at hnot
  have hkey : Key.pointer aliasId ≠ [] := nofun
  exact (KeySpace.contains_eq_false_iff hkey).mp (hnot ▸ hcontains)

theorem removeAlias_eq_ok {item aliasId : ItemId} {v : Unit}
    (h : removeAlias item aliasId s = .ok v t) :
    ∃ slot u, resolve s.keys aliasId = .ok item ∧
      put item (Event.lifecycle .unaliased aliasId.encode) s = .ok slot u ∧
      unlink item aliasId u = .ok v t := by
  obtain ⟨target, s₁, hquery, h⟩ := Txn.bind_eq_ok.mp h
  obtain ⟨htarget, rfl⟩ := Txn.query_eq_ok.mp hquery
  obtain ⟨hsame, h⟩ := Txn.refuse_if_eq_ok.mp h
  obtain ⟨slot, u, hput, h⟩ := Txn.bind_eq_ok.mp h
  exact ⟨slot, u, by rwa [not_not.mp hsame] at htarget, hput, h⟩

end Item

end Chronicle
