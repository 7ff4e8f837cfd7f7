import Mathlib
import Chronicle.Proofs.Run

/-!
# Rebuilding an index

The takeover of an item event in three parts: an event of creation starts the index, any event
takes a slot, and an event of deletion or of an alias then has its effect. The operations on an
item have the same parts around their append.
-/
namespace Chronicle.Item

/-- Starts the index of the item that the event creates, if it creates one. -/
def startIndex (item : ItemId) (event : Event) : Txn Unit := do
  if event.isLifecycle .created then
    if ← Txn.query fun keys => isThere keys item then Txn.refuse (.itemExists item)
    initIndex item

/-- What the event does to the index beside its slot. -/
def settle (item : ItemId) (event : Event) : Txn Unit := do
  if event.isLifecycle .deleted then teardown item
  else if event.isLifecycle .aliased then link item (← Txn.lift event.aliasTarget)
  else if event.isLifecycle .unaliased then unlink item (← Txn.lift event.aliasTarget)

theorem replicate_eq (entry : LogEvent) : replicate entry = (do
    let found ← Txn.lift entry.itemEvent
    startIndex found.item found.event
    let slot ← Txn.query fun keys => version keys found.item
    recordSlot found.item slot entry.id entry.mark
    settle found.item found.event) := by
  unfold replicate startIndex
  congr 1
  funext found
  by_cases h : found.event.isLifecycle .created = true
  · simp only [h, if_true, bind_assoc]
    congr 1
    funext there
    cases there <;> rfl
  · simp only [if_neg h, pure_bind]
    rfl

variable {s₀ s t : Session} {item : ItemId} {F : Bytes → Prop}

theorem replicate_eq_ok {entry : LogEvent} {v : Unit} :
    replicate entry s = .ok v t ↔ ∃ found s₁ slot s₂, entry.itemEvent = .ok found ∧
      startIndex found.item found.event s = .ok () s₁ ∧
      version s₁.keys found.item = .ok slot ∧
      recordSlot found.item slot entry.id entry.mark s₁ = .ok () s₂ ∧
      settle found.item found.event s₂ = .ok v t := by
  rw [replicate_eq, Txn.bind_eq_ok]
  constructor
  · rintro ⟨found, s₀, hlift, h⟩
    obtain ⟨hfound, rfl⟩ := Txn.lift_eq_ok.mp hlift
    obtain ⟨_, s₁, hstart, h⟩ := Txn.bind_eq_ok.mp h
    obtain ⟨slot, s₁, hquery, h⟩ := Txn.bind_eq_ok.mp h
    obtain ⟨hslot, rfl⟩ := Txn.query_eq_ok.mp hquery
    obtain ⟨_, s₂, hrecord, hsettle⟩ := Txn.bind_eq_ok.mp h
    exact ⟨found, _, slot, s₂, hfound, hstart, hslot, hrecord, hsettle⟩
  · rintro ⟨found, s₁, slot, s₂, hfound, hstart, hslot, hrecord, hsettle⟩
    exact ⟨found, s, Txn.lift_eq_ok.mpr ⟨hfound, rfl⟩, Txn.bind_eq_ok.mpr ⟨(), s₁, hstart,
      Txn.bind_eq_ok.mpr ⟨slot, s₁, Txn.query_eq_ok.mpr ⟨hslot, rfl⟩,
        Txn.bind_eq_ok.mpr ⟨(), s₂, hrecord, hsettle⟩⟩⟩⟩

theorem keeps_startIndex {I : Session → Prop} {event : Event} (hinit : (initIndex item).Keeps I) :
    (startIndex item event).Keeps I := by
  refine Txn.keeps_ite ?_ (Txn.keeps_pure _)
  refine (Txn.keeps_query _).bind fun there => ?_
  exact Txn.keeps_refuse_if hinit

theorem keeps_settle {I : Session → Prop} {event : Event} (hteardown : (teardown item).Keeps I)
    (hlink : ∀ x, (link item x).Keeps I) (hunlink : ∀ x, (unlink item x).Keeps I) :
    (settle item event).Keeps I := by
  refine Txn.keeps_ite hteardown ?_
  refine Txn.keeps_ite ((Txn.keeps_lift _).bind fun x => hlink x) ?_
  exact Txn.keeps_ite ((Txn.keeps_lift _).bind fun x => hunlink x) (Txn.keeps_pure _)

theorem keeps_replicate {I : Session → Prop} {entry : LogEvent}
    (hparts : ∀ found, entry.itemEvent = .ok found →
      (startIndex found.item found.event).Keeps I ∧
      (∀ slot, (recordSlot found.item slot entry.id entry.mark).Keeps I) ∧
      (settle found.item found.event).Keeps I) : (replicate entry).Keeps I := by
  rw [replicate_eq]
  refine (Txn.keeps_lift _).bind_of_ok fun _ hlift ht => ?_
  obtain ⟨hstart, hrecord, hsettle⟩ := hparts _ (Txn.lift_eq_ok.mp hlift).1
  refine (hstart.bind fun _ => ?_) _ ht
  refine (Txn.keeps_query _).bind fun slot => ?_
  refine (hrecord slot).bind fun _ => ?_
  exact hsettle

theorem writes_startIndex (event : Event) (hF : ∀ k, F (Key.sub item k)) :
    (startIndex item event).Keeps (s₀.Writes F) := keeps_startIndex (writes_initIndex hF)

theorem writes_settle (event : Event) (hF : ∀ k, F (Key.sub item k))
    (hpointer : ∀ x, F (Key.pointer x)) : (settle item event).Keeps (s₀.Writes F) :=
  keeps_settle (writes_teardown hF hpointer) (fun x => writes_link (hpointer x) (hF .aliases))
    fun x => writes_unlink (hpointer x) (hF .aliases)

/-- The event stands in the log before. -/
theorem writes_replicate {entry : LogEvent} (hF : ∀ item k, F (Key.sub item k))
    (hpointer : ∀ x, F (Key.pointer x)) (hlog : s₀.keys.stored? (Key.log entry.id) ≠ none) :
    (replicate entry).Keeps (s₀.Writes F) := by
  refine keeps_replicate fun found _ => ⟨?_, fun slot => ?_, ?_⟩
  · exact writes_startIndex _ (hF found.item)
  · exact writes_recordSlot (hF found.item) hlog
  · exact writes_settle _ (hF found.item) hpointer

end Chronicle.Item

namespace Chronicle

/-- The key space with events written into its log as they are. -/
def KeySpace.withLog (keys : KeySpace) (events : List LogEvent) : KeySpace :=
  events.foldl (fun keys e => keys.insert (Key.log e.id) (e.mark :: e.payload)) keys

theorem KeySpace.withLog_append (keys : KeySpace) (xs ys : List LogEvent) :
    keys.withLog (xs ++ ys) = (keys.withLog xs).withLog ys := List.foldl_append

theorem KeySpace.stored?_withLog_of_ne (keys : KeySpace) {events : List LogEvent} {key : Bytes}
    (h : ∀ e ∈ events, Key.log e.id ≠ key) :
    (keys.withLog events).stored? key = keys.stored? key := by
  induction events generalizing keys with
  | nil => rfl
  | cons e events ih =>
    rw [withLog, List.foldl_cons, ← withLog, ih _ fun e he => h e (List.mem_cons_of_mem _ he)]
    exact stored?_insert_of_ne _ _ (h e List.mem_cons_self)

@[simp] theorem KeySpace.stored?_withLog_sub (keys : KeySpace) (events : List LogEvent)
    (item : ItemId) (k : SubKey) :
    (keys.withLog events).stored? (Key.sub item k) = keys.stored? (Key.sub item k) :=
  keys.stored?_withLog_of_ne fun e _ => Key.log_ne_sub e.id item k

@[simp] theorem KeySpace.stored?_withLog_pointer (keys : KeySpace) (events : List LogEvent)
    (x : ItemId) :
    (keys.withLog events).stored? (Key.pointer x) = keys.stored? (Key.pointer x) :=
  keys.stored?_withLog_of_ne fun e _ => Key.log_ne_pointer e.id x

theorem KeySpace.stored?_withLog_ne_none (keys : KeySpace) {events : List LogEvent} {id : EventId}
    (h : keys.stored? (Key.log id) ≠ none ∨ ∃ e ∈ events, e.id = id) :
    (keys.withLog events).stored? (Key.log id) ≠ none := by
  induction events generalizing keys with
  | nil => simpa [withLog] using h
  | cons e events ih =>
    refine ih _ ?_
    rw [stored?_insert]
    split_ifs with heq
    · exact .inl (by simp)
    · rcases h with h | ⟨e', he', hid⟩
      · exact .inl h
      · rcases List.mem_cons.mp he' with rfl | he'
        · exact absurd (by rw [hid]) heq
        · exact .inr ⟨e', he', hid⟩

theorem Log.replicate_eq (e : LogEvent) (s : Session) :
    replicate e s = .ok () { s with keys := s.keys.withLog [e] } := by
  refine Txn.set_eq_ok.mpr ⟨⟨Key.log_ne_nil _, ?_⟩, rfl⟩
  rw [Key.length_log]
  decide

namespace Replication

variable {s t : Session}

/-- The log half of a takeover cannot fail. -/
theorem forM_log_eq_ok (events : List LogEvent) (s : Session) :
    events.forM Log.replicate s = .ok () { s with keys := s.keys.withLog events } := by
  induction events generalizing s with
  | nil => rfl
  | cons e events ih => exact Txn.bind_eq_ok.mpr ⟨(), _, Log.replicate_eq e s, ih _⟩

theorem apply_eq_ok {events : List LogEvent} {n : Nat} :
    apply events s = .ok n t ↔ n = events.length ∧
      (events.filter fun e => Kind.isItem e.mark).forM Item.replicate
        { s with keys := s.keys.withLog events } = .ok () t := by
  constructor
  · intro h
    obtain ⟨_, u, hlog, h⟩ := Txn.bind_eq_ok.mp h
    obtain ⟨_, w, hindex, h⟩ := Txn.bind_eq_ok.mp h
    obtain ⟨rfl, rfl⟩ := Txn.pure_eq_ok.mp h
    rw [forM_log_eq_ok] at hlog
    cases hlog
    exact ⟨rfl, hindex⟩
  · rintro ⟨rfl, hindex⟩
    exact Txn.bind_eq_ok.mpr ⟨(), _, forM_log_eq_ok events s,
      Txn.bind_eq_ok.mpr ⟨(), t, hindex, Txn.pure_eq_ok.mpr ⟨rfl, rfl⟩⟩⟩

/-- An entry of a kind that no item has goes into the log alone. -/
theorem apply_foreign {e : LogEvent} (hkind : Kind.isItem e.mark = false) :
    apply [e] s = .ok 1 { s with keys := s.keys.withLog [e] } := by
  rw [apply_eq_ok, List.filter_cons_of_neg (by simp [hkind])]
  exact ⟨rfl, rfl⟩

/-- However it ends, a takeover has written its log entries and then some of the indexes. -/
theorem writes_apply (events : List LogEvent) (s : Session) :
    Session.Writes (fun _ => True) { s with keys := s.keys.withLog events }
      ((apply events).leaves s) := by
  unfold apply
  rw [Txn.leaves_bind, forM_log_eq_ok]
  refine ((Txn.keeps_forM fun e he => ?_).bind fun _ => Txn.keeps_pure events.length) _ .refl
  exact Item.writes_replicate (fun _ _ => trivial) (fun _ => trivial)
    (s.keys.stored?_withLog_ne_none (.inr ⟨e, List.mem_of_mem_filter he, rfl⟩))

end Replication
end Chronicle
