import Mathlib
import Chronicle.Session
import Chronicle.Proofs.KeyLayout
import Chronicle.Proofs.Outcomes

/-!
# Transactions step by step

A transaction that succeeds has succeeded in each of its parts, and the lemmas on `= .ok` take
it apart. What a transaction preserves however it ends is put together from its parts as well.
-/
namespace Chronicle

/-! ## Reading the key space -/

namespace KeySpace

theorem get_eq_none {keys : KeySpace} {key : Bytes} (hkey : key ≠ [])
    (h : keys.stored? key = none) : keys.get key = .ok none := by
  simp [get, hkey, h]

theorem get_eq_some {keys : KeySpace} {key : Bytes} {e : Entry} (hkey : key ≠ [])
    (h : keys.stored? key = some e.stored) : keys.get key = .ok (some e) := by
  simp [get, hkey, h, Entry.ofStored_stored]

theorem stored?_of_get {keys : KeySpace} {key : Bytes} {e : Entry}
    (h : keys.get key = .ok (some e)) : keys.stored? key = some e.stored := by
  unfold get at h
  split_ifs at h
  cases hstored : keys.stored? key with
  | none => rw [hstored] at h; cases h
  | some stored =>
    rw [hstored] at h
    cases stored with
    | nil => cases h
    | cons mark value =>
      cases h
      rfl

theorem get_congr {a b : KeySpace} {key : Bytes} (h : a.stored? key = b.stored? key) :
    a.get key = b.get key := by
  simp only [get, h]

theorem contains_congr {a b : KeySpace} {key : Bytes} (h : a.stored? key = b.stored? key) :
    a.contains key = b.contains key := by
  rw [contains, contains, get_congr h]

theorem contains_eq_false_iff {keys : KeySpace} {key : Bytes} (hkey : key ≠ []) :
    keys.contains key = .ok false ↔ keys.stored? key = none := by
  unfold contains get
  rw [if_neg hkey]
  cases keys.stored? key with
  | none => simp
  | some stored => cases stored <;> simp [Entry.ofStored]

theorem contains_eq_true {keys : KeySpace} {key value : Bytes} {mark : UInt8} (hkey : key ≠ [])
    (h : keys.stored? key = some (mark :: value)) : keys.contains key = .ok true := by
  rw [contains, get_eq_some (e := ⟨mark, value⟩) hkey h]
  rfl

theorem stored?_insert_self (keys : KeySpace) (key stored : Bytes) :
    (keys.insert key stored).stored? key = some stored := by
  rw [stored?_insert, if_pos rfl]

theorem stored?_insert_of_ne (keys : KeySpace) {key other : Bytes} (stored : Bytes)
    (h : key ≠ other) : (keys.insert key stored).stored? other = keys.stored? other := by
  rw [stored?_insert, if_neg h]

/-- A write of one key of an index leaves the others. -/
theorem stored?_insert_sub {keys : KeySpace} {item : ItemId} {k l : SubKey} {stored : Bytes}
    (h : l ≠ k) : (keys.insert (Key.sub item k) stored).stored? (Key.sub item l) =
      keys.stored? (Key.sub item l) :=
  stored?_insert_of_ne keys stored (Key.sub_ne h.symm)

theorem stored?_erase_self (keys : KeySpace) (key : Bytes) :
    (keys.erase key).stored? key = none := by
  rw [stored?_erase, if_pos rfl]

theorem stored?_erase_of_ne (keys : KeySpace) {key other : Bytes} (h : key ≠ other) :
    (keys.erase key).stored? other = keys.stored? other := by
  rw [stored?_erase, if_neg h]

theorem mem_toList {keys : KeySpace} {key stored : Bytes} :
    (key, stored) ∈ keys.toList ↔ keys.stored? key = some stored :=
  Std.ExtTreeMap.mem_toList_iff_getElem?_eq_some

@[simp] theorem stored?_empty (key : Bytes) : empty.stored? key = none := by
  simp [stored?, empty]

end KeySpace

namespace Txn

variable {α β : Type} {s t : Session}

/-! ## Success -/

theorem pure_eq_ok {a b : α} : (pure a : Txn α) s = .ok b t ↔ a = b ∧ s = t := by
  constructor
  · intro h
    cases h
    exact ⟨rfl, rfl⟩
  · rintro ⟨rfl, rfl⟩
    rfl

theorem bind_eq_ok {m : Txn α} {f : α → Txn β} {b : β} :
    (m >>= f) s = .ok b t ↔ ∃ a u, m s = .ok a u ∧ f a u = .ok b t := by
  show EStateM.bind m f s = _ ↔ _
  unfold EStateM.bind
  cases h : m s with
  | ok a u =>
    constructor
    · intro hf
      exact ⟨a, u, rfl, hf⟩
    · rintro ⟨a', u', hm, hf⟩
      cases hm
      exact hf
  | error fault u => simp

theorem map_eq_ok {m : Txn α} {f : α → β} {b : β} :
    (f <$> m) s = .ok b t ↔ ∃ a, m s = .ok a t ∧ f a = b := by
  show EStateM.map f m s = _ ↔ _
  unfold EStateM.map
  cases h : m s <;> simp [and_comm]

theorem query_eq_ok {read : KeySpace → Outcome α} {a : α} :
    query read s = .ok a t ↔ read s.keys = .ok a ∧ s = t := by
  unfold query
  cases h : read s.keys <;> simp

theorem lift_eq_ok {outcome : Outcome α} {a : α} :
    lift outcome s = .ok a t ↔ outcome = .ok a ∧ s = t := query_eq_ok

theorem refuse_ne_ok {fault : Fault} {a : α} : (refuse fault : Txn α) s ≠ .ok a t := nofun

/-- A refusal under a condition: what follows is reached only when the condition fails. -/
theorem refuse_if_eq_ok {c : Prop} [Decidable c] {fault : Fault} {f : PUnit → Txn β} {b : β} :
    (if c then refuse fault >>= f else f ⟨⟩) s = .ok b t ↔ ¬ c ∧ f ⟨⟩ s = .ok b t := by
  split_ifs with h
  · simp only [h, not_true, false_and, iff_false, bind_eq_ok, not_exists, not_and]
    exact fun a u hrefuse => absurd hrefuse refuse_ne_ok
  · simp [h]

theorem set_eq_ok {key value : Bytes} {mark : UInt8} {u : Unit} :
    set key value mark s = .ok u t ↔ (key ≠ [] ∧ key.length ≤ keyLimit) ∧
      t = { s with keys := s.keys.insert key (mark :: value) } := by
  unfold set
  split_ifs with h
  · simp only [false_iff, not_and]
    intro hk
    rcases h with h | h
    · exact absurd h hk.1
    · omega
  · push Not at h
    simp only [EStateM.Result.ok.injEq, true_and]
    exact ⟨fun ht => ⟨h, ht.symm⟩, fun ht => ht.2.symm⟩

theorem delete_eq_ok {key : Bytes} {u : Unit} :
    delete key s = .ok u t ↔ key ≠ [] ∧ t = { s with keys := s.keys.erase key } := by
  unfold delete
  split_ifs with h
  · simp [h]
  · simp only [EStateM.Result.ok.injEq, true_and]
    exact ⟨fun ht => ⟨h, ht.symm⟩, fun ht => ht.2.symm⟩

theorem update_eq_ok {m : Txn α} {a : α} : s.update m = (.ok a, t) ↔ m s = .ok a t := by
  unfold Session.update EStateM.run
  cases m s <;> simp

/-- A transaction that fails changes no key. -/
theorem keys_of_update_error {m : Txn α} {fault : Fault}
    (h : s.update m = (.error fault, t)) : t.keys = s.keys := by
  unfold Session.update EStateM.run at h
  cases hm : m s with
  | ok a u => simp [hm] at h
  | error other u =>
    rw [hm] at h
    cases h
    rfl

/-- Whether a transaction succeeds, as a test. -/
def succeeds (m : Txn α) (s : Session) : Bool :=
  match m s with
  | .ok _ _ => true
  | .error _ _ => false

theorem succeeds_iff {m : Txn α} : m.succeeds s = true ↔ ∃ a t, m s = .ok a t := by
  unfold succeeds
  cases m s <;> simp

end Txn

/-- The clock after one more reading. -/
def Clock.tick (clock : Clock) : Clock := { clock with taken := clock.taken + 1 }

/-- The reading that is taken next. -/
def Clock.reading (clock : Clock) : Nat := clock.readings clock.taken

theorem Clock.toNat_ofNat {time : Nat} (h : time ≤ limit) : (UInt64.ofNat time).toNat = time := by
  apply UInt64.toNat_ofNat_of_lt'
  simp only [limit] at h
  simp only [UInt64.size]
  omega

theorem Txn.now_eq_ok {s t : Session} {time : UInt64} :
    now s = .ok time t ↔ s.clock.reading ≤ Clock.limit ∧ time = UInt64.ofNat s.clock.reading ∧
      t = { s with clock := s.clock.tick } := by
  unfold now
  dsimp only
  split_ifs with h
  · simp only [EStateM.Result.ok.injEq]
    exact ⟨fun ht => ⟨h, ht.1.symm, ht.2.symm⟩, fun ht => ⟨ht.2.1.symm, ht.2.2.symm⟩⟩
  · simp only [false_iff, not_and]
    exact fun hle => absurd hle h

/-! ## Invariants of transactions -/

namespace Txn

variable {α β : Type} {s t : Session}

/-- The session that a transaction leaves behind, however it ends. -/
def leaves (m : Txn α) (s : Session) : Session :=
  match m s with
  | .ok _ t => t
  | .error _ t => t

theorem leaves_of_ok {m : Txn α} {a : α} (h : m s = .ok a t) : m.leaves s = t := by
  rw [leaves, h]

theorem leaves_bind (m : Txn α) (f : α → Txn β) :
    (m >>= f).leaves s = match m s with
      | .ok a t => (f a).leaves t
      | .error _ t => t := by
  show leaves (EStateM.bind m f) s = _
  unfold leaves EStateM.bind
  cases m s <;> rfl

/-- However it ends, the transaction preserves `I`. -/
def Keeps (I : Session → Prop) (m : Txn α) : Prop := ∀ s, I s → I (m.leaves s)

section Keeps

variable {I : Session → Prop}

theorem Keeps.of_ok {m : Txn α} {a : α} (hm : m.Keeps I) (hs : I s) (h : m s = .ok a t) : I t :=
  leaves_of_ok h ▸ hm s hs

theorem keeps_pure (a : α) : (pure a : Txn α).Keeps I := fun _ hs => hs

theorem keeps_refuse (fault : Fault) : (refuse fault : Txn α).Keeps I := fun _ hs => hs

theorem keeps_query (read : KeySpace → Outcome α) : (query read).Keeps I := by
  intro s hs
  unfold leaves query
  cases read s.keys <;> exact hs

theorem keeps_lift (outcome : Outcome α) : (lift outcome).Keeps I := keeps_query _

/-- What comes second may rely on the success of what comes first. -/
theorem Keeps.bind_of_ok {m : Txn α} {f : α → Txn β} (hm : m.Keeps I)
    (hf : ∀ {s a t}, I s → m s = .ok a t → I t → I ((f a).leaves t)) : (m >>= f).Keeps I := by
  intro s hs
  have hleft := hm s hs
  rw [leaves_bind]
  unfold leaves at hleft
  cases h : m s with
  | ok a t =>
    rw [h] at hleft
    exact hf hs h hleft
  | error fault t =>
    rw [h] at hleft
    exact hleft

theorem Keeps.bind {m : Txn α} {f : α → Txn β} (hm : m.Keeps I) (hf : ∀ a, (f a).Keeps I) :
    (m >>= f).Keeps I := hm.bind_of_ok fun _ _ ht => hf _ _ ht

theorem Keeps.map {m : Txn α} {f : α → β} (hm : m.Keeps I) : (f <$> m).Keeps I := by
  intro s hs
  have hleft := hm s hs
  show I (leaves (EStateM.map f m) s)
  unfold leaves EStateM.map at *
  cases h : m s <;> rw [h] at hleft <;> exact hleft

theorem keeps_ite {c : Prop} [Decidable c] {m n : Txn α} (hm : m.Keeps I) (hn : n.Keeps I) :
    (if c then m else n).Keeps I := by
  split_ifs
  · exact hm
  · exact hn

theorem keeps_refuse_if {c : Prop} [Decidable c] {fault : Fault} {f : PUnit → Txn β}
    (hf : (f ⟨⟩).Keeps I) : (if c then refuse fault >>= f else f ⟨⟩).Keeps I :=
  keeps_ite ((keeps_refuse _).bind fun _ => hf) hf

theorem keeps_forM {xs : List β} {f : β → Txn Unit} (h : ∀ x ∈ xs, (f x).Keeps I) :
    (xs.forM f).Keeps I := by
  induction xs with
  | nil => exact keeps_pure ()
  | cons x xs ih =>
    exact (h x List.mem_cons_self).bind fun _ => ih fun y hy => h y (List.mem_cons_of_mem x hy)

theorem keeps_set {key value : Bytes} {mark : UInt8}
    (h : ∀ s, I s → I { s with keys := s.keys.insert key (mark :: value) }) :
    (set key value mark).Keeps I := by
  intro s hs
  unfold leaves set
  split_ifs
  · exact hs
  · exact h s hs

theorem keeps_delete {key : Bytes} (h : ∀ s, I s → I { s with keys := s.keys.erase key }) :
    (delete key).Keeps I := by
  intro s hs
  unfold leaves delete
  split_ifs
  · exact hs
  · exact h s hs

theorem keeps_now (h : ∀ s, I s → I { s with clock := s.clock.tick }) : now.Keeps I := by
  intro s hs
  unfold leaves now
  dsimp only
  split_ifs <;> exact h s hs

end Keeps

end Txn
end Chronicle
