import Mathlib
import Chronicle.Proofs.Writes

/-!
# Runs of a store

The operations of a store as data, and a run of a store as a sequence of transactions. The
trace of a run lists what the committed transactions did, step by step, with the key space
before and after each step. A registry mutation counts as two steps, since the first one of a
store also creates the item of the registry.
-/
namespace Chronicle

/-! ## Operations -/

inductive Mutation
  | createEntityType (name : String)
  | deleteEntityType (name : String)
  | createEventType (entity name : String) (schema : Payload.Schema)
  | updateEventType (entity name : String) (schema : Payload.Schema)
  | deleteEventType (entity name : String)

namespace Mutation

def run : Mutation → Txn Nat
  | createEntityType name => Registry.createEntityType name
  | deleteEntityType name => Registry.deleteEntityType name
  | createEventType entity name schema => Registry.createEventType entity name schema
  | updateEventType entity name schema => Registry.updateEventType entity name schema
  | deleteEventType entity name => Registry.deleteEventType entity name

/-- The change that a mutation appends. -/
def change : Mutation → Change
  | createEntityType name => .entityCreated name
  | deleteEntityType name => .entityDeleted name
  | createEventType entity name schema => .eventCreated entity name schema.write
  | updateEventType entity name schema => .eventUpdated entity name schema.write
  | deleteEventType entity name => .eventDeleted entity name

/-- What a mutation asks of the registry. -/
def Admits (r : Registry) : Mutation → Prop
  | createEntityType name => r.entity? name = none
  | deleteEntityType name => ∃ e, r.entity? name = some e
  | createEventType entity name _ => ∃ e, r.entity? entity = some e ∧ e.hasEvent name = false
  | updateEventType entity name _ => ∃ e, r.entity? entity = some e ∧ e.hasEvent name = true
  | deleteEventType entity name => ∃ e, r.entity? entity = some e ∧ e.hasEvent name = true

/-- What a mutation answers, given the registry before it and the slot of its change. -/
def Answers (r : Registry) (slot : Nat) : Mutation → Nat → Prop
  | updateEventType entity name _, n => ∃ e, r.entity? entity = some e ∧ n = e.nextNumber name
  | _, n => n = slot

end Mutation

namespace Registry

theorem requireEntity_eq_ok {r : Registry} {entity : String} {e : EntityType Payload.Schema} :
    requireEntity r entity = .ok e ↔ r.entity? entity = some e := by
  unfold requireEntity
  cases r.entity? entity <;> simp

theorem requireEvent_eq_ok {r : Registry} {entity name : String} {e : EntityType Payload.Schema} :
    requireEvent r entity name = .ok e ↔ r.entity? entity = some e ∧ e.hasEvent name = true := by
  unfold requireEvent requireEntity
  cases r.entity? entity with
  | none => simp [bind, Except.bind]
  | some found =>
    rw [Option.some.injEq]
    by_cases h : found.hasEvent name = true
    · simp only [bind, Except.bind, h, if_true, pure, Except.pure, Except.ok.injEq]
      constructor
      · rintro rfl
        exact ⟨rfl, h⟩
      · exact fun h => h.1
    · simp only [bind, Except.bind, h]
      constructor
      · nofun
      · rintro ⟨rfl, hevent⟩
        exact absurd hevent h

variable {s t : Session}

theorem prepare_eq_ok {r : Registry} :
    prepare s = .ok r t ↔ ensure s = .ok () t ∧ current t.keys = .ok r := by
  unfold prepare
  rw [Txn.bind_eq_ok]
  constructor
  · rintro ⟨_, u, hensure, hquery⟩
    obtain ⟨hcurrent, rfl⟩ := Txn.query_eq_ok.mp hquery
    exact ⟨hensure, hcurrent⟩
  · rintro ⟨hensure, hcurrent⟩
    exact ⟨(), t, hensure, Txn.query_eq_ok.mpr ⟨hcurrent, rfl⟩⟩

/-- The item of the registry is there afterwards, and was created only if it was not. -/
theorem ensure_eq_ok {v : Unit} (h : ensure s = .ok v t) :
    Item.isThere t.keys registryItem = .ok true ∧
      (Item.isThere s.keys registryItem = .ok true ∧ s = t ∨
        Item.isThere s.keys registryItem = .ok false ∧ Item.create registryItem s = .ok v t) := by
  obtain ⟨there, u, hquery, h⟩ := Txn.bind_eq_ok.mp h
  obtain ⟨hthere, rfl⟩ := Txn.query_eq_ok.mp hquery
  cases there with
  | true =>
    obtain ⟨-, rfl⟩ := Txn.pure_eq_ok.mp h
    exact ⟨hthere, .inl ⟨hthere, rfl⟩⟩
  | false =>
    obtain ⟨w, -, -, happend⟩ := Item.create_eq_ok h
    exact ⟨Item.isThere_of_append happend, .inr ⟨hthere, h⟩⟩

theorem ensure_of_isThere (h : Item.isThere s.keys registryItem = .ok true) :
    ensure s = .ok () s :=
  Txn.bind_eq_ok.mpr ⟨true, s, Txn.query_eq_ok.mpr ⟨h, rfl⟩, rfl⟩

theorem append_eq_ok {change : Change} {slot : Nat} :
    append change s = .ok slot t ↔
      ∃ event, change.toEvent = .ok event ∧ Item.putNext registryItem event s = .ok slot t := by
  unfold append
  rw [Txn.bind_eq_ok]
  constructor
  · rintro ⟨event, u, hlift, hput⟩
    obtain ⟨hevent, rfl⟩ := Txn.lift_eq_ok.mp hlift
    exact ⟨event, hevent, hput⟩
  · rintro ⟨event, hevent, hput⟩
    exact ⟨event, s, Txn.lift_eq_ok.mpr ⟨hevent, rfl⟩, hput⟩

end Registry

/-- A mutation reads the registry, checks what it asks of it and appends its change. -/
theorem Mutation.run_eq_ok {m : Mutation} {s t : Session} {n : Nat} :
    m.run s = .ok n t ↔ ∃ r u, Registry.prepare s = .ok r u ∧ m.Admits r ∧
      ∃ slot, Registry.append m.change u = .ok slot t ∧ m.Answers r slot n := by
  cases m with
  | createEntityType name =>
    refine Txn.bind_eq_ok.trans (exists_congr fun r => exists_congr fun u => and_congr_right' ?_)
    rw [Txn.refuse_if_eq_ok]
    simp [Admits, Answers, change]
  | deleteEntityType name =>
    refine Txn.bind_eq_ok.trans (exists_congr fun r => exists_congr fun u => and_congr_right' ?_)
    simp only [Txn.bind_eq_ok, Txn.lift_eq_ok, Registry.requireEntity_eq_ok]
    simp [Admits, Answers, change]
  | createEventType entity name schema =>
    refine Txn.bind_eq_ok.trans (exists_congr fun r => exists_congr fun u => and_congr_right' ?_)
    simp only [Txn.bind_eq_ok, Txn.lift_eq_ok, Registry.requireEntity_eq_ok, Txn.refuse_if_eq_ok]
    simp [Admits, Answers, change, ← and_assoc]
  | updateEventType entity name schema =>
    refine Txn.bind_eq_ok.trans (exists_congr fun r => exists_congr fun u => and_congr_right' ?_)
    simp only [Txn.bind_eq_ok, Txn.lift_eq_ok, Registry.requireEvent_eq_ok, Txn.pure_eq_ok]
    constructor
    · rintro ⟨e, v, ⟨he, rfl⟩, slot, w, happend, rfl, rfl⟩
      exact ⟨⟨e, he⟩, slot, happend, e, he.1, rfl⟩
    · rintro ⟨⟨e, he⟩, slot, happend, e', he', rfl⟩
      rw [he.1, Option.some.injEq] at he'
      exact ⟨e, u, ⟨he, rfl⟩, slot, t, happend, by rw [he'], rfl⟩
  | deleteEventType entity name =>
    refine Txn.bind_eq_ok.trans (exists_congr fun r => exists_congr fun u => and_congr_right' ?_)
    simp only [Txn.bind_eq_ok, Txn.lift_eq_ok, Registry.requireEvent_eq_ok]
    simp [Admits, Answers, change]

/-- Where the item of the registry is there, a mutation gives it the event of its change. -/
theorem Mutation.putNext_of_run {m : Mutation} {s t : Session} {n : Nat}
    (hthere : Item.isThere s.keys registryItem = .ok true) (h : m.run s = .ok n t) :
    ∃ event slot, m.change.toEvent = .ok event ∧ Item.putNext registryItem event s = .ok slot t := by
  obtain ⟨r, u, hprepare, -, slot, happend, -⟩ := run_eq_ok.mp h
  obtain ⟨hensure, -⟩ := Registry.prepare_eq_ok.mp hprepare
  rw [Registry.ensure_of_isThere hthere] at hensure
  cases hensure
  obtain ⟨event, hevent, hput⟩ := Registry.append_eq_ok.mp happend
  exact ⟨event, slot, hevent, hput⟩

/-- A mutation is the same with the item of the registry put in place before it. -/
theorem Mutation.run_after_ensure {m : Mutation} {s t : Session} {n : Nat}
    (h : m.run s = .ok n t) :
    ∃ u, Registry.ensure s = .ok () u ∧ m.run u = .ok n t := by
  obtain ⟨r, u, hprepare, hrest⟩ := run_eq_ok.mp h
  obtain ⟨hensure, hcurrent⟩ := Registry.prepare_eq_ok.mp hprepare
  have hagain := Registry.ensure_of_isThere (Registry.ensure_eq_ok hensure).1
  exact ⟨u, hensure, run_eq_ok.mpr ⟨r, u, Registry.prepare_eq_ok.mpr ⟨hagain, hcurrent⟩, hrest⟩⟩

/-- A mutation puts the item of the registry in place and appends a change. -/
theorem Mutation.keeps {I : Session → Prop} (m : Mutation) (hensure : Registry.ensure.Keeps I)
    (hnext : ∀ event, (Item.putNext registryItem event).Keeps I) : m.run.Keeps I := by
  have hprepare : Registry.prepare.Keeps I := hensure.bind fun _ => Txn.keeps_query _
  have happend : ∀ change, (Registry.append change).Keeps I := fun change =>
    (Txn.keeps_lift _).bind fun event => hnext event
  cases m with
  | createEntityType name =>
    refine hprepare.bind fun r => ?_
    exact Txn.keeps_refuse_if (happend _)
  | createEventType entity name schema =>
    refine hprepare.bind fun r => ?_
    refine (Txn.keeps_lift _).bind fun e => ?_
    exact Txn.keeps_refuse_if (happend _)
  | updateEventType entity name schema =>
    refine hprepare.bind fun r => ?_
    refine (Txn.keeps_lift _).bind fun e => ?_
    refine (happend _).bind fun n => ?_
    exact Txn.keeps_pure _
  | deleteEntityType | deleteEventType =>
    refine hprepare.bind fun r => ?_
    refine (Txn.keeps_lift _).bind fun e => ?_
    exact happend _

theorem Mutation.writes (m : Mutation) {s₀ : Session} :
    m.run.Keeps (s₀.Writes (Item.Touches registryItem)) :=
  m.keeps Registry.writes_ensure Item.writes_putNext

inductive Op : Type 1
  | create (item : ItemId)
  | put (item : ItemId) (event : Event)
  | addAlias (item aliasId : ItemId)
  | removeAlias (item aliasId : ItemId)
  | delete (item : ItemId)
  | sync {σ : Type} (item : ItemId) (name : Bytes) (view : View σ) (initial : σ)
  /-- The first half of a mutation. -/
  | ensure
  | mutate (m : Mutation)
  | log (partition : UInt8) (event : LogEvent)
  | logAt (partition : UInt8) (timestamp : UInt64) (event : LogEvent)

inductive Reply
  | done
  | number (n : Nat)
  | logged (id : EventId)
  deriving DecidableEq, Repr

namespace Op

def run : Op → Txn Reply
  | create item => (fun _ => .done) <$> Item.create item
  | put item event => .number <$> Item.put item event
  | addAlias item aliasId => (fun _ => .done) <$> Item.addAlias item aliasId
  | removeAlias item aliasId => (fun _ => .done) <$> Item.removeAlias item aliasId
  | delete item => (fun _ => .done) <$> Item.delete item
  | sync item name view initial => (fun _ => .done) <$> Item.sync item name view initial
  | ensure => (fun _ => .done) <$> Registry.ensure
  | mutate m => .number <$> m.run
  | log partition event => .logged <$> Log.put partition event
  | logAt partition timestamp event => .logged <$> Log.putAt partition timestamp event

/-- The item that an operation is about. -/
def item? : Op → Option ItemId
  | create item | put item _ | addAlias item _ | removeAlias item _ | delete item => some item
  | sync item _ _ _ => some item
  | ensure | mutate _ => some registryItem
  | log _ _ | logAt _ _ _ => none

/-- A mutation is a single append once the item of the registry is there. -/
def Ready (keys : KeySpace) : Op → Prop
  | mutate _ => Item.isThere keys registryItem = .ok true
  | _ => True

/-- What an operation that succeeds does, and to which item. A mutation finds the item of the registry
there, so all that is left of it is to append its change. -/
inductive Done (s t : Session) : Op → Option ItemId → Prop
  | create {item : ItemId} (h : Item.create item s = .ok () t) : Done s t (.create item) (some item)
  | put {item : ItemId} {event : Event} {slot : Nat} (h : Item.put item event s = .ok slot t) :
    Done s t (.put item event) (some item)
  | addAlias {item x : ItemId} (h : Item.addAlias item x s = .ok () t) :
    Done s t (.addAlias item x) (some item)
  | removeAlias {item x : ItemId} (h : Item.removeAlias item x s = .ok () t) :
    Done s t (.removeAlias item x) (some item)
  | delete {item : ItemId} (h : Item.delete item s = .ok () t) : Done s t (.delete item) (some item)
  | sync {σ : Type} {item : ItemId} {name : Bytes} {view : View σ} {initial value : σ}
    (h : Item.sync item name view initial s = .ok value t) :
    Done s t (.sync item name view initial) (some item)
  | found (hthere : Item.isThere s.keys registryItem = .ok true) (hsame : s = t) :
    Done s t .ensure (some registryItem)
  | ensure (hthere : Item.isThere s.keys registryItem = .ok false)
    (h : Item.create registryItem s = .ok () t) : Done s t .ensure (some registryItem)
  | mutate {m : Mutation} {event : Event} {slot : Nat} (hevent : m.change.toEvent = .ok event)
    (h : Item.putNext registryItem event s = .ok slot t) : Done s t (.mutate m) (some registryItem)
  | log {p : UInt8} {event : LogEvent} {id : EventId} (h : Log.put p event s = .ok id t) :
    Done s t (.log p event) none
  | logAt {p : UInt8} {time : UInt64} {event : LogEvent} {id : EventId}
    (h : Log.putAt p time event s = .ok id t) : Done s t (.logAt p time event) none

theorem done {op : Op} {item : Option ItemId} {s t : Session} {reply : Reply}
    (hready : op.Ready s.keys) (hitem : op.item? = item) (hrun : op.run s = .ok reply t) :
    op.Done s t item := by
  subst hitem
  cases op with
  | ensure =>
    obtain ⟨_, hensure, -⟩ := Txn.map_eq_ok.mp hrun
    rcases (Registry.ensure_eq_ok hensure).2 with ⟨hthere, hsame⟩ | ⟨hthere, hcreate⟩
    · exact .found hthere hsame
    · exact .ensure hthere hcreate
  | mutate m =>
    obtain ⟨n, hm, -⟩ := Txn.map_eq_ok.mp hrun
    obtain ⟨event, slot, hevent, hput⟩ := m.putNext_of_run hready hm
    exact .mutate hevent hput
  | _ =>
    obtain ⟨_, h, -⟩ := Txn.map_eq_ok.mp hrun
    constructor
    exact h

/-- The keys that an operation may change. -/
def Touches (op : Op) (key : Bytes) : Prop :=
  (∃ item ∈ op.item?, Item.Touches item key) ∨ ∃ id, key = Key.log id

/-- The index of an item that stands apart is out of reach. -/
theorem not_touches_sub {op : Op} {b : ItemId} (h : ∀ a, op.item? = some a → a.Apart b)
    (k : SubKey) : ¬ op.Touches (Key.sub b k) := by
  rintro (⟨a, ha, ⟨k', hk⟩ | ⟨x, hx⟩ | ⟨id, hid⟩⟩ | ⟨id, hid⟩)
  · exact h a ha k' k hk.symm
  · exact Key.sub_ne_pointer b x k hx
  · exact Key.sub_ne_log id b k hid
  · exact Key.sub_ne_log id b k hid

theorem writes (op : Op) {s₀ : Session} : op.run.Keeps (s₀.Writes op.Touches) := by
  have hitem : ∀ {item : ItemId} {op : Op} {m : Txn Reply}, op.item? = some item →
      (∀ {s : Session}, m.Keeps (s.Writes (Item.Touches item))) → m.Keeps (s₀.Writes op.Touches) :=
    fun hop hm => Txn.Keeps.writes_mono hm fun hkey => .inl ⟨_, hop, hkey⟩
  cases op with
  | create item => exact hitem rfl Item.writes_create.map
  | put item event => exact hitem rfl (Item.writes_put event).map
  | addAlias item aliasId => exact hitem rfl (Item.writes_addAlias aliasId).map
  | removeAlias item aliasId => exact hitem rfl (Item.writes_removeAlias aliasId).map
  | delete item => exact hitem rfl Item.writes_deleteItem.map
  | sync item name view initial =>
    exact hitem rfl (Item.writes_sync name view initial
      fun name => Item.touches_sub (.view name)).map
  | ensure => exact hitem rfl Registry.writes_ensure.map
  | mutate m => exact hitem rfl m.writes.map
  | log partition event => exact (Log.writes_put partition event fun id => .inr ⟨id, rfl⟩).map
  | logAt partition timestamp event =>
    exact (Log.writes_putAt partition timestamp event fun id => .inr ⟨id, rfl⟩).map

/-- A mutation in its two halves, any other operation as it is. -/
def stages : Op → List Op
  | mutate m => [ensure, mutate m]
  | op => [op]

end Op

/-! ## Runs -/

/-- An operation that has succeeded, with what it answered. -/
structure Step where
  op : Op
  reply : Reply
  before : KeySpace
  after : KeySpace

namespace Run

/-- The body of a transaction. It fails with the first operation that fails. -/
def body : List Op → Txn Unit
  | [] => return
  | op :: ops => do
    let _ ← op.run
    body ops

/-- The steps of a transaction up to the first operation that fails. -/
def steps : List Op → Session → List Step
  | [], _ => []
  | op :: ops, s =>
    match op.run s with
    | .ok reply t => ⟨op, reply, s.keys, t.keys⟩ :: steps ops t
    | .error _ _ => []

/-- Runs transactions one after the other and answers the steps of those that were committed. -/
def run : List (List Op) → Session → List Step × Session
  | [], s => ([], s)
  | ops :: rest, s =>
    match s.update (body ops) with
    | (.ok _, t) => (steps (ops.flatMap Op.stages) s ++ (run rest t).1, (run rest t).2)
    | (.error _, t) => run rest t

theorem body_cons_eq_ok {op : Op} {ops : List Op} {s t : Session} {v : Unit} :
    body (op :: ops) s = .ok v t ↔
      ∃ reply u, op.run s = .ok reply u ∧ body ops u = .ok v t := Txn.bind_eq_ok

theorem steps_cons {op : Op} {reply : Reply} {s t : Session} (h : op.run s = .ok reply t)
    (ops : List Op) : steps (op :: ops) s = ⟨op, reply, s.keys, t.keys⟩ :: steps ops t := by
  rw [steps, h]

theorem writes_body (ops : List Op) {s₀ : Session} :
    (body ops).Keeps (s₀.Writes fun _ => True) := by
  induction ops with
  | nil => exact Txn.keeps_pure _
  | cons op ops ih => exact (Txn.Keeps.writes_mono op.writes fun _ => trivial).bind fun _ => ih

/-! ## Induction over runs -/

/-- A session with the steps that have led to it. Clock readings may be lost in between, to
transactions that were aborted. -/
inductive Reached (clock : Clock) : List Step → Session → Prop
  | start : Reached clock [] (Session.start clock)
  | abort {trace : List Step} {s t : Session} (h : Reached clock trace s) (hkeys : t.keys = s.keys)
      (hreadings : t.clock.readings = s.clock.readings) (htaken : s.clock.taken ≤ t.clock.taken) :
      Reached clock trace t
  | step {trace : List Step} {s t : Session} {op : Op} {reply : Reply} (h : Reached clock trace s)
      (hready : op.Ready s.keys) (hop : op.run s = .ok reply t) :
      Reached clock (trace ++ [⟨op, reply, s.keys, t.keys⟩]) t

namespace Reached

variable {clock : Clock} {trace : List Step} {s t : Session}

theorem steps {ops : List Op} (h : Reached clock trace s) {v : Unit}
    (hbody : body ops s = .ok v t) :
    Reached clock (trace ++ Run.steps (ops.flatMap Op.stages) s) t := by
  induction ops generalizing trace s with
  | nil =>
    obtain ⟨-, rfl⟩ := Txn.pure_eq_ok.mp hbody
    rwa [List.flatMap_nil, Run.steps, List.append_nil]
  | cons op ops ih =>
    obtain ⟨reply, u, hop, hrest⟩ := body_cons_eq_ok.mp hbody
    cases op with
    | mutate m =>
      obtain ⟨n, hm, rfl⟩ := Txn.map_eq_ok.mp hop
      obtain ⟨w, hensure, hm⟩ := m.run_after_ensure hm
      have hfirst : Op.ensure.run s = .ok .done w := Txn.map_eq_ok.mpr ⟨(), hensure, rfl⟩
      have hsecond : (Op.mutate m).run w = .ok (.number n) u := Txn.map_eq_ok.mpr ⟨n, hm, rfl⟩
      change Reached clock (trace ++ Run.steps (_ :: _ :: _) s) t
      rw [steps_cons hfirst, steps_cons hsecond, List.append_cons, List.append_cons]
      have hready : (Op.mutate m).Ready w.keys := (Registry.ensure_eq_ok hensure).1
      refine ih (Reached.step (h.step ?_ hfirst) hready hsecond) hrest
      trivial
    | _ =>
      change Reached clock (trace ++ Run.steps (_ :: _) s) t
      rw [steps_cons hop, List.append_cons]
      refine ih (h.step ?_ hop) hrest
      trivial

theorem run (txns : List (List Op)) (h : Reached clock trace s) :
    Reached clock (trace ++ (Run.run txns s).1) (Run.run txns s).2 := by
  induction txns generalizing trace s with
  | nil => rwa [Run.run, List.append_nil]
  | cons ops rest ih =>
    have hwithin := (Txn.Keeps.writes_leaves (writes_body ops) s).within
    unfold Run.run Session.update
    unfold Txn.leaves at hwithin
    rw [EStateM.run]
    cases hbody : body ops s with
    | ok v t =>
      dsimp only
      rw [← List.append_assoc]
      exact ih (h.steps hbody)
    | error fault t =>
      rw [hbody] at hwithin
      exact ih (h.abort rfl hwithin.readings hwithin.taken)

/-- A step of the trace was taken in a session that the steps before it had led to. -/
theorem at_step {before after : List Step} {step : Step} (h : Reached clock trace s)
    (hsplit : trace = before ++ step :: after) :
    ∃ u w, Reached clock before u ∧ step.op.Ready u.keys ∧ step.op.run u = .ok step.reply w ∧
      step.before = u.keys ∧ step.after = w.keys := by
  induction h generalizing after with
  | start => simp at hsplit
  | abort h hkeys hreadings htaken ih => exact ih hsplit
  | @step trace s t op reply h hready hop ih =>
    rcases List.eq_nil_or_concat after with rfl | ⟨rest, last, rfl⟩
    · rw [← List.concat_eq_append, ← List.concat_eq_append, List.concat_inj] at hsplit
      obtain ⟨rfl, rfl⟩ := hsplit
      exact ⟨s, t, h, hready, hop, rfl, rfl⟩
    · rw [List.concat_eq_append, ← List.cons_append, ← List.append_assoc,
        ← List.concat_eq_append, ← List.concat_eq_append, List.concat_inj] at hsplit
      exact ih hsplit.1

end Reached

/-- What transactions on an empty store do, step by step. -/
def trace (txns : List (List Op)) (clock : Clock) : List Step := (run txns (.start clock)).1

/-- What transactions on an empty store leave in it. -/
def result (txns : List (List Op)) (clock : Clock) : KeySpace :=
  (run txns (.start clock)).2.keys

theorem reached (txns : List (List Op)) (clock : Clock) :
    Reached clock (trace txns clock) (run txns (.start clock)).2 :=
  Reached.start.run txns

theorem run_append (txns more : List (List Op)) (s : Session) :
    run (txns ++ more) s =
      ((run txns s).1 ++ (run more (run txns s).2).1, (run more (run txns s).2).2) := by
  induction txns generalizing s with
  | nil => rfl
  | cons ops rest ih =>
    rw [List.cons_append, run, run]
    rcases s.update (body ops) with ⟨fault | v, t⟩
    · exact ih t
    · dsimp only
      rw [ih, List.append_assoc]

/-- More transactions only add to the trace. -/
theorem trace_append (txns more : List (List Op)) (clock : Clock) :
    ∃ later, trace (txns ++ more) clock = trace txns clock ++ later :=
  ⟨_, congrArg Prod.fst (run_append txns more _)⟩

theorem op_mem_of_mem_steps {ops : List Op} {s : Session} {step : Step} (h : step ∈ steps ops s) :
    step.op ∈ ops := by
  induction ops generalizing s with
  | nil => cases h
  | cons op ops ih =>
    unfold steps at h
    cases hop : op.run s with
    | error fault t => rw [hop] at h; cases h
    | ok reply t =>
      rw [hop] at h
      rcases List.mem_cons.mp h with rfl | h
      · exact List.mem_cons_self
      · exact List.mem_cons_of_mem _ (ih h)

theorem op_mem_of_mem_run {txns : List (List Op)} {s : Session} {step : Step}
    (h : step ∈ (run txns s).1) : ∃ ops ∈ txns, ∃ op ∈ ops, step.op ∈ op.stages := by
  induction txns generalizing s with
  | nil => cases h
  | cons ops rest ih =>
    have hrest : ∀ {t : Session}, step ∈ (run rest t).1 →
        ∃ ops' ∈ ops :: rest, ∃ op ∈ ops', step.op ∈ op.stages := fun h => by
      obtain ⟨ops', hops, hop⟩ := ih h
      exact ⟨ops', List.mem_cons_of_mem _ hops, hop⟩
    unfold run at h
    rcases hupdate : s.update (body ops) with ⟨fault | v, t⟩
    · rw [hupdate] at h
      exact hrest h
    · rw [hupdate] at h
      rcases List.mem_append.mp h with h | h
      · obtain ⟨op, hop, hstage⟩ := List.mem_flatMap.mp (op_mem_of_mem_steps h)
        exact ⟨ops, List.mem_cons_self, op, hop, hstage⟩
      · exact hrest h

/-- A step comes from an operation of some transaction. -/
theorem op_mem_of_mem_trace {txns : List (List Op)} {clock : Clock} {step : Step}
    (h : step ∈ trace txns clock) : ∃ ops ∈ txns, ∃ op ∈ ops, step.op ∈ op.stages :=
  op_mem_of_mem_run h

/-- What holds of every operation of the transactions holds of every step, if it holds of the first
half of a mutation with the mutation. -/
theorem forall_mem_trace {txns : List (List Op)} {clock : Clock} {Q : Op → Prop}
    (hensure : ∀ m, Q (.mutate m) → Q .ensure) (h : ∀ ops ∈ txns, ∀ op ∈ ops, Q op) :
    ∀ step ∈ trace txns clock, Q step.op := by
  intro step hstep
  obtain ⟨ops, hops, op, hop, hstage⟩ := op_mem_of_mem_trace hstep
  have hQ := h ops hops op hop
  cases op with
  | mutate m =>
    rcases List.mem_cons.mp hstage with heq | hstage
    · rw [heq]
      exact hensure m hQ
    · rw [List.mem_singleton.mp hstage]
      exact hQ
  | _ =>
    rw [List.mem_singleton.mp hstage]
    exact hQ

end Run
end Chronicle
