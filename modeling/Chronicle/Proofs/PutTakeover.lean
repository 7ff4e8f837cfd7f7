import Mathlib
import Chronicle.Proofs.EffectTakeover
import Chronicle.Proofs.SlotPointers

/-!
# Puts and their takeover

A put appends an event to the log and points a slot at it. Taking that entry over in the store
before the put is the same step for the events of an item. An entry of a kind that no item event
has is taken over into the log alone, while the put has given it a slot.

An event that looks like one of the lifecycle can be put as well. A put of it has no effect beside its
slot, while the takeover cannot tell it from an event of the lifecycle and carries it out.
-/
namespace Chronicle.Item

variable {s t : Session} {item : ItemId} {event : Event} {slot : Nat}

/-- What a put of a kind that no item event has leaves in the log, and what a takeover makes of
it. -/
theorem putNext_foreign (hkind : Kind.isItem event.kind = false)
    (h : putNext item event s = .ok slot t) :
    ∃ e : LogEvent, Log.Adds s.keys t.keys e ∧ e.mark = event.kind ∧
      e.itemEvent = .ok ⟨item, { event with id := e.id }⟩ ∧
      ∀ clock, Replication.apply [e] ⟨s.keys, clock⟩ = .ok 1 ⟨s.keys.withLog [e], clock⟩ := by
  obtain ⟨e, hentered, hmark, hitem, -⟩ :=
    perform_entered (perform_of_putNext (Event.isLifecycle_of_foreign hkind) h)
  exact ⟨e, hentered.adds, hmark, hitem, fun clock => Replication.apply_foreign (hmark ▸ hkind)⟩

/-- A put and the takeover of its log entry are the same step, whatever the event of the item. Of
an event that no item has, the takeover writes the log entry and nothing else. Events that look like
those of the lifecycle are left out, since they are carried out by the takeover alone: the creation
fails, and a deletion or an alias goes into the index. -/
theorem put_takeover (hplain : ∀ what, event.isLifecycle what = false)
    (h : put item event s = .ok slot t) :
    ∃ e : LogEvent, Log.Adds s.keys t.keys e ∧ e.mark = event.kind ∧
      e.itemEvent = .ok ⟨item, { event with id := e.id }⟩ ∧
      ∀ clock, Replication.apply [e] ⟨s.keys, clock⟩ =
        .ok 1 ⟨if Kind.isItem event.kind then t.keys else s.keys.withLog [e], clock⟩ := by
  obtain ⟨-, hput⟩ := put_eq_ok.mp h
  by_cases hkind : Kind.isItem event.kind = true
  · obtain ⟨e, happended, hmark, hitem, -⟩ :=
      perform_appended hkind (perform_of_putNext hplain hput)
    refine ⟨e, happended.adds, hmark, hitem, fun clock => ?_⟩
    rw [if_pos hkind]
    exact happended.takeover clock
  · rw [Bool.not_eq_true] at hkind
    obtain ⟨e, hadds, hmark, hitem, htakeover⟩ := putNext_foreign hkind hput
    refine ⟨e, hadds, hmark, hitem, fun clock => ?_⟩
    rw [htakeover, hkind]
    rfl

/-! ## Where the two differ -/

theorem version_withLog (keys : KeySpace) (events : List LogEvent) (item : ItemId) :
    version (keys.withLog events) item = version keys item :=
  version_congr (keys.stored?_withLog_sub events item .version)

/-- The put has moved the version on. -/
theorem put_ne_withLog (h : put item event s = .ok slot t) (events : List LogEvent) :
    t.keys ≠ s.keys.withLog events := by
  obtain ⟨hversion, id, hextends⟩ := put_extends h
  have hnext := hextends.version
  intro heq
  rw [heq, version_withLog, hversion, Except.ok.injEq] at hnext
  omega

/-- A put writes no pointer. -/
theorem pointer_of_put (h : put item event s = .ok slot t) (x : ItemId) :
    t.keys.stored? (Key.pointer x) = s.keys.stored? (Key.pointer x) := by
  obtain ⟨-, happend⟩ := putNext_eq_ok.mp (put_eq_ok.mp h).2
  have hwithin := ((writes_append (F := fun key => (∃ k, key = Key.sub item k) ∨ ∃ id, key = Key.log id)
    (fun k => .inl ⟨k, rfl⟩) fun id => .inr ⟨id, rfl⟩).of_ok .refl happend).within
  apply hwithin.frame
  rintro (⟨k, hk⟩ | ⟨id, hid⟩)
  · exact Key.pointer_ne_sub item x k hk
  · exact Key.pointer_ne_log id x hid

section

variable {e : LogEvent} {n : Nat} {x : ItemId}

/-- The takeover of one event begins and ends with its effect. -/
theorem parts_of_takeover {f : Effect} (heffect : e.effect? = some f)
    (happly : Replication.apply [e] s = .ok n t) :
    (∃ u, f.start ⟨s.keys.withLog [e], s.clock⟩ = .ok () u) ∧ ∃ u, f.settle u = .ok () t := by
  obtain ⟨-, hforM⟩ := Replication.apply_eq_ok.mp happly
  rw [List.filter_cons_of_pos (by exact (LogEvent.effect?_eq_some heffect).1)] at hforM
  obtain ⟨_, w, hreplicate, hrest⟩ := Txn.bind_eq_ok.mp hforM
  obtain ⟨-, rfl⟩ := Txn.pure_eq_ok.mp hrest
  obtain ⟨s₁, slot, s₂, hstart, -, -, hsettle⟩ := (LogEvent.replicate_eq_ok heffect).mp hreplicate
  exact ⟨⟨s₁, hstart⟩, s₂, hsettle⟩

/-- The takeover of an event of creation fails where its item is there. -/
theorem takeover_created_ne_ok (heffect : e.effect? = some (.create item))
    (hthere : isThere s.keys item = .ok true) : Replication.apply [e] s ≠ .ok n t := by
  intro happly
  obtain ⟨⟨u, hstart⟩, -⟩ := parts_of_takeover heffect happly
  have hnot := (startIndex_created.mp hstart).1
  have hsame : isThere (s.keys.withLog [e]) item = isThere s.keys item :=
    KeySpace.contains_congr (s.keys.stored?_withLog_sub [e] item .version)
  rw [hsame, hthere, Except.ok.injEq] at hnot
  cases hnot

/-- After the takeover of an event of deletion the item is gone. -/
theorem takeover_deleted (heffect : e.effect? = some (.delete item))
    (happly : Replication.apply [e] s = .ok n t) : isThere t.keys item = .ok false := by
  obtain ⟨-, u, hsettle⟩ := parts_of_takeover heffect happly
  exact (teardown_spec hsettle).1

theorem takeover_aliased (heffect : e.effect? = some (.link item x))
    (happly : Replication.apply [e] s = .ok n t) :
    t.keys.stored? (Key.pointer x) = some (0 :: item.encode) := by
  obtain ⟨-, u, hsettle⟩ := parts_of_takeover heffect happly
  rw [pointer_of_link hsettle, if_pos rfl]

theorem takeover_unaliased (heffect : e.effect? = some (.unlink item x))
    (happly : Replication.apply [e] s = .ok n t) : t.keys.stored? (Key.pointer x) = none := by
  obtain ⟨-, u, hsettle⟩ := parts_of_takeover heffect happly
  rw [pointer_of_unlink hsettle, if_pos rfl]

end

namespace PutTakeover

def x : ItemId := ⟨1, Utf8.encode "x"⟩

/-- A store with an item. -/
def withX : Session := (Op.create x).run.leaves (.start (.steady 5 1))

theorem reachable_withX : Reachable withX.keys := .run (s := .start (.steady 5 1)) .empty (.create x)

def domain : Event := .entity [1] [2]

/-- No item event has this kind. -/
def foreign : Event := .new 0 [] []

def z : ItemId := ⟨1, Utf8.encode "z"⟩

/-- The item has an alias. -/
def withAlias : Session := (Op.addAlias x z).run.leaves withX

theorem reachable_withAlias : Reachable withAlias.keys := .run reachable_withX (.addAlias x z)

/-- The event has the kind, the type and the payload of one of the lifecycle. -/
def lookalike : Lifecycle → Event
  | .created => .lifecycle .created []
  | .deleted => .lifecycle .deleted []
  | .aliased => .lifecycle .aliased z.encode
  | .unaliased => .lifecycle .unaliased z.encode

/-- What a takeover takes the event for. -/
def meaning : Lifecycle → Effect
  | .created => .create x
  | .deleted => .delete x
  | .aliased => .link x z
  | .unaliased => .unlink x z

theorem effect?_lookalike (what : Lifecycle) (id : EventId) :
    ItemEvent.effect? ⟨x, { lookalike what with id := id }⟩ = some (meaning what) := by
  cases what <;> rfl

theorem domain_plain : ∀ what, domain.isLifecycle what = false := by
  intro what
  cases what <;> rfl

theorem put_takeover_domain : (∀ what, domain.isLifecycle what = false) ∧
    ∃ t, put x domain withX = .ok 1 t ∧ ∃ e : LogEvent, Log.Adds withX.keys t.keys e ∧
      ∀ clock, Replication.apply [e] ⟨withX.keys, clock⟩ = .ok 1 ⟨t.keys, clock⟩ := by
  have hput : ∃ t, put x domain withX = .ok 1 t := ⟨_, rfl⟩
  obtain ⟨t, hput⟩ := hput
  obtain ⟨e, hadds, -, -, htakeover⟩ := put_takeover domain_plain hput
  exact ⟨domain_plain, t, hput, e, hadds, htakeover⟩

/-- In every reachable store, a put of the event and the takeover of its log entry are the same. -/
def TakenOverAsPut (event : Event) : Prop :=
  ∀ {s t : Session} {item : ItemId} {slot : Nat} {e : LogEvent}, Reachable s.keys →
    put item event s = .ok slot t → Log.Adds s.keys t.keys e → e.mark = event.kind →
      e.itemEvent = .ok ⟨item, { event with id := e.id }⟩ →
        ∀ clock, Replication.apply [e] ⟨s.keys, clock⟩ = .ok 1 ⟨t.keys, clock⟩

theorem TakenOverAsPut.exists_entry (h : TakenOverAsPut event)
    (hreachable : Reachable s.keys) (hput : put item event s = .ok slot t) :
    ∃ e : LogEvent, e.mark = event.kind ∧ e.itemEvent = .ok ⟨item, { event with id := e.id }⟩ ∧
      Replication.apply [e] s = .ok 1 ⟨t.keys, s.clock⟩ := by
  obtain ⟨-, id, hextends⟩ := put_extends hput
  obtain ⟨payload, hpayload, hadds⟩ := hextends.adds
  have hitem : LogEvent.itemEvent ⟨event.kind, id, payload⟩ =
      .ok ((Envelope.wrap item event).unwrap event.kind id) := LogEvent.itemEvent_of_encode hpayload
  exact ⟨⟨event.kind, id, payload⟩, rfl, hitem, h hreachable hput hadds rfl hitem s.clock⟩

/-- A look-alike would be taken over with the effect of what it looks like. -/
theorem TakenOverAsPut.exists_effect {what : Lifecycle}
    (h : TakenOverAsPut (lookalike what)) (hreachable : Reachable s.keys)
    (hput : put x (lookalike what) s = .ok slot t) :
    ∃ e : LogEvent, e.effect? = some (meaning what) ∧
      Replication.apply [e] s = .ok 1 ⟨t.keys, s.clock⟩ := by
  obtain ⟨e, hmark, hitem, htakeover⟩ := h.exists_entry hreachable hput
  have hkind : Kind.isItem e.mark = true := by
    rw [hmark]
    cases what <;> rfl
  refine ⟨e, ?_, htakeover⟩
  rw [LogEvent.effect?, if_pos hkind, hitem]
  exact effect?_lookalike what e.id

/-- The foreign event is not taken over as it was put, and neither is a look-alike of any kind. -/
theorem not_put_takeover :
    ¬ TakenOverAsPut foreign ∧ ∀ what, ¬ TakenOverAsPut (lookalike what) := by
  constructor
  · intro h
    obtain ⟨t, hput⟩ : ∃ t, put x foreign withX = .ok 1 t := ⟨_, rfl⟩
    obtain ⟨e, hmark, -, htakeover⟩ := h.exists_entry reachable_withX hput
    have hkind : Kind.isItem e.mark = false := by
      rw [hmark]
      rfl
    rw [Replication.apply_foreign hkind, EStateM.Result.ok.injEq] at htakeover
    exact put_ne_withLog hput [e] (congrArg Session.keys htakeover.2).symm
  intro what h
  cases what with
  | created =>
    -- the item is there already
    obtain ⟨t, hput⟩ : ∃ t, put x (lookalike .created) withX = .ok 1 t := ⟨_, rfl⟩
    obtain ⟨e, heffect, htakeover⟩ := h.exists_effect reachable_withX hput
    exact takeover_created_ne_ok heffect rfl htakeover
  | deleted =>
    -- the put leaves the item where it is
    obtain ⟨t, hput⟩ : ∃ t, put x (lookalike .deleted) withX = .ok 1 t := ⟨_, rfl⟩
    obtain ⟨e, heffect, htakeover⟩ := h.exists_effect reachable_withX hput
    obtain ⟨-, id, hextends⟩ := put_extends hput
    have hgone := takeover_deleted heffect htakeover
    rw [(isThere_of_version hextends.version).1, Except.ok.injEq] at hgone
    cases hgone
  | aliased =>
    -- the alias has no pointer, and gets none from the put
    obtain ⟨t, hput⟩ : ∃ t, put x (lookalike .aliased) withX = .ok 1 t := ⟨_, rfl⟩
    obtain ⟨e, heffect, htakeover⟩ := h.exists_effect reachable_withX hput
    have hpointer := takeover_aliased heffect htakeover
    have hfree : withX.keys.stored? (Key.pointer z) = none := rfl
    rw [pointer_of_put hput, hfree] at hpointer
    cases hpointer
  | unaliased =>
    -- the alias has a pointer, which the put leaves alone
    obtain ⟨t, hput⟩ : ∃ t, put x (lookalike .unaliased) withAlias = .ok 2 t := ⟨_, rfl⟩
    obtain ⟨e, heffect, htakeover⟩ := h.exists_effect reachable_withAlias hput
    have hpointer := takeover_unaliased heffect htakeover
    have htaken : withAlias.keys.stored? (Key.pointer z) = some (0 :: x.encode) := rfl
    rw [pointer_of_put hput, htaken] at hpointer
    cases hpointer

end PutTakeover

end Chronicle.Item
