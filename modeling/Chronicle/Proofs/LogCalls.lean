import Mathlib
import Chronicle.Proofs.Failures
import Chronicle.Proofs.Takeover

/-!
# Calls to the log

An operation appends to the log at most once, by a call of `Log.put`, and whatever else it writes
lies outside the log. This holds however the operation ends: one that fails may have made its call
before. A mutation of the registry counts as two operations, since the first one of a store also
creates the item of the registry.
-/
namespace Chronicle

variable {s t u : Session} {e : LogEvent}

/-! ## Sessions -/

namespace Session

/-- From `s` to `t` one call of `Log.put` has appended the entry, and nothing else has been written
to the log. -/
def Puts (s : Session) (e : LogEvent) (t : Session) : Prop :=
  ∃ u v, s.Within Key.OffLog u ∧ Log.put e.id.partition e u = .ok e.id v ∧
    v.Within Key.OffLog t

/-- From `s` to `t` at most one entry has been appended, of which `P` holds. -/
def Logs (P : EventId → Prop) (s t : Session) : Prop :=
  s.Within Key.OffLog t ∨ ∃ e, P e.id ∧ s.Puts e t

theorem puts_of_put {partition : UInt8} {event : LogEvent} {id : EventId}
    (h : Log.put partition event s = .ok id t) : s.Puts { event with id := id } t := by
  obtain ⟨-, rfl, -⟩ := Log.put_eq_ok h
  exact ⟨s, t, .refl s, h, .refl t⟩

namespace Puts

theorem before (h : s.Within Key.OffLog t) (hput : t.Puts e u) : s.Puts e u := by
  obtain ⟨v, w, hv, hput, hw⟩ := hput
  exact ⟨v, w, h.trans hv, hput, hw⟩

theorem after (hput : s.Puts e t) (h : t.Within Key.OffLog u) : s.Puts e u := by
  obtain ⟨v, w, hv, hput, hw⟩ := hput
  exact ⟨v, w, hv, hput, hw.trans h⟩

theorem adds (h : s.Puts e t) : Log.Adds s.keys t.keys e := by
  obtain ⟨u, v, hu, hput, hv⟩ := h
  exact ((Log.put_entered hput).adds.after_same (hu.same_log Key.not_offLog_log)).before_same
    (hv.same_log Key.not_offLog_log)

/-- Every other key of the log is as it was, also one that is no identity. -/
theorem frame (h : s.Puts e t) {key : Bytes} (hkey : ¬ Key.OffLog key) (hne : key ≠ Key.log e.id) :
    t.keys.stored? key = s.keys.stored? key := by
  obtain ⟨u, v, hu, hput, hv⟩ := h
  obtain ⟨-, -, -, -, rfl⟩ := Log.put_eq_ok hput
  rw [hv.frame hkey, KeySpace.stored?_insert_of_ne _ _ hne.symm, hu.frame hkey]

end Puts

namespace Logs

variable {P Q : EventId → Prop}

theorem refl (P : EventId → Prop) (s : Session) : s.Logs P s := .inl (.refl s)

theorem before (h : s.Within Key.OffLog t) (hlogs : t.Logs P u) : s.Logs P u := by
  rcases hlogs with hwithin | ⟨e, he, hput⟩
  · exact .inl (h.trans hwithin)
  · exact .inr ⟨e, he, hput.before h⟩

theorem after (hlogs : s.Logs P t) (h : t.Within Key.OffLog u) : s.Logs P u := by
  rcases hlogs with hwithin | ⟨e, he, hput⟩
  · exact .inl (hwithin.trans h)
  · exact .inr ⟨e, he, hput.after h⟩

theorem mono (hlogs : s.Logs P t) (h : ∀ id, P id → Q id) : s.Logs Q t :=
  hlogs.imp_right fun ⟨e, he, hput⟩ => ⟨e, h e.id he, hput⟩

end Logs

end Session

/-! ## Transactions -/

namespace Txn

variable {α β : Type} {P : EventId → Prop}

/-- However it ends, the transaction leaves the log alone. -/
def Silent (m : Txn α) : Prop := ∀ s : Session, s.Within Key.OffLog (m.leaves s)

/-- However it ends, the transaction has appended at most once. -/
def LogsOnce (P : EventId → Prop) (m : Txn α) : Prop := ∀ s : Session, s.Logs P (m.leaves s)

theorem Keeps.silent {m : Txn α} (h : ∀ {s : Session}, m.Keeps (s.Writes Key.OffLog)) : m.Silent :=
  fun s => (writes_leaves h s).within

theorem silent_query (read : KeySpace → Outcome α) : (query read).Silent :=
  Keeps.silent (keeps_query read)

theorem silent_lift (outcome : Outcome α) : (lift outcome).Silent := silent_query _

theorem silent_refuse (fault : Fault) : (refuse fault : Txn α).Silent :=
  Keeps.silent (keeps_refuse fault)

theorem silent_pure (a : α) : (pure a : Txn α).Silent := Keeps.silent (keeps_pure a)

namespace Silent

variable {m : Txn α} {f : α → Txn β}

theorem of_ok (hm : m.Silent) {a : α} (h : m s = .ok a t) : s.Within Key.OffLog t :=
  leaves_of_ok h ▸ hm s

theorem logsOnce (hm : m.Silent) : m.LogsOnce P := fun s => .inl (hm s)

/-- The append comes second, and may rely on the success of what comes first. -/
theorem bind_of_ok (hm : m.Silent)
    (hf : ∀ {s a t}, m s = .ok a t → t.Logs P ((f a).leaves t)) : (m >>= f).LogsOnce P := by
  intro s
  have hleft := hm s
  rw [leaves_bind]
  unfold leaves at hleft
  cases h : m s with
  | ok a t =>
    rw [h] at hleft
    exact .before hleft (hf h)
  | error fault t =>
    rw [h] at hleft
    exact .inl hleft

theorem bind (hm : m.Silent) (hf : ∀ a, (f a).LogsOnce P) : (m >>= f).LogsOnce P :=
  hm.bind_of_ok fun _ => hf _ _

end Silent

namespace LogsOnce

variable {m n : Txn α} {f : α → Txn β}

/-- The append comes first. -/
theorem bind (hm : m.LogsOnce P) (hf : ∀ a, (f a).Silent) : (m >>= f).LogsOnce P := by
  intro s
  have hleft := hm s
  rw [leaves_bind]
  unfold leaves at hleft
  cases h : m s with
  | ok a t =>
    rw [h] at hleft
    exact hleft.after (hf a t)
  | error fault t =>
    rw [h] at hleft
    exact hleft

theorem map {g : α → β} (hm : m.LogsOnce P) : (g <$> m).LogsOnce P := by
  intro s
  rw [leaves_map]
  exact hm s

theorem ite {c : Prop} [Decidable c] (hm : m.LogsOnce P) (hn : n.LogsOnce P) :
    (if c then m else n).LogsOnce P := by
  split_ifs
  · exact hm
  · exact hn

theorem refuse_if {c : Prop} [Decidable c] {fault : Fault} {g : PUnit → Txn β}
    (hg : (g ⟨⟩).LogsOnce P) : (if c then refuse fault >>= g else g ⟨⟩).LogsOnce P :=
  .ite ((silent_refuse fault).bind fun _ => hg) hg

end LogsOnce

end Txn

/-! ## Operations -/

theorem Log.putAt_eq_error {partition : UInt8} {timestamp : UInt64} {event : LogEvent}
    {fault : Fault} (h : putAt partition timestamp event s = .error fault t) : s = t := by
  rcases Txn.bind_eq_error.mp h with hquery | ⟨id, u, hquery, h⟩
  · exact Txn.query_eq_error hquery
  · obtain ⟨-, rfl⟩ := Txn.query_eq_ok.mp hquery
    rcases Txn.bind_eq_error.mp h with hset | ⟨_, v, -, hpure⟩
    · exact Txn.set_eq_error hset
    · cases hpure

/-- A call that fails has taken a reading of the clock and no more. -/
theorem Log.within_of_put_error {partition : UInt8} {event : LogEvent} {fault : Fault}
    (h : put partition event s = .error fault t) : s.Within Key.OffLog t := by
  have hnow : Txn.now.Silent := Txn.Keeps.silent (Txn.keeps_now fun _ hs => hs.tail (.tick _))
  rcases Txn.bind_eq_error.mp h with h | ⟨time, u, h, hput⟩
  · exact Txn.leaves_of_error h ▸ hnow s
  · exact putAt_eq_error hput ▸ hnow.of_ok h

theorem Log.put_logsOnce (partition : UInt8) (event : LogEvent) :
    (put partition event).LogsOnce (fun id => id.partition = partition) := by
  intro s
  cases h : put partition event s with
  | ok id t =>
    rw [Txn.leaves_of_ok h]
    exact .inr ⟨_, (put_eq_ok h).2.1, Session.puts_of_put h⟩
  | error fault t =>
    rw [Txn.leaves_of_error h]
    exact .inl (within_of_put_error h)

/-- The partition is that of the item. -/
def ItemId.Owns (item : ItemId) (id : EventId) : Prop := id.partition.toNat = item.tag.toNat

namespace Item

variable {item : ItemId}

theorem silent_recordSlot (slot : Nat) (id : EventId) (kind : UInt8) :
    (recordSlot item slot id kind).Silent := by
  have hset : (Txn.set (Key.slot item (UInt64.ofNat slot)) (Key.log id) kind).Silent := by
    intro s
    unfold Txn.leaves Txn.set
    split_ifs
    · exact .refl s
    · exact .insert s _ (Key.head?_index_ne _ _ _) (Key.head?_index_ne _ _ _)
  intro s
  rw [recordSlot, Txn.leaves_bind]
  cases h : Txn.set (Key.slot item (UInt64.ofNat slot)) (Key.log id) kind s with
  | ok v t =>
    exact (hset.of_ok h).trans
      (Txn.Keeps.silent (writes_setVersion _ (Key.offLog_sub item .version)) t)
  | error fault t =>
    rw [← Txn.set_eq_error h]
    exact .refl s

theorem append_logsOnce (slot : Nat) (event : Event) : (append item slot event).LogsOnce item.Owns := by
  refine (Txn.silent_lift _).bind_of_ok fun {s partition t} hlift => ?_
  obtain ⟨hpartition, rfl⟩ := Txn.lift_eq_ok.mp hlift
  have hput : (fun id : EventId => id.partition = partition) = item.Owns := by
    funext id
    rw [ItemId.partition_eq_ok] at hpartition
    rw [ItemId.Owns, hpartition, UInt8.toNat_inj]
  rw [← hput]
  refine (Txn.silent_lift _).bind (fun payload => ?_) s
  refine (Log.put_logsOnce partition _).bind fun id => ?_
  exact silent_recordSlot slot id event.kind

theorem putNext_logsOnce (event : Event) : (putNext item event).LogsOnce item.Owns := by
  refine (Txn.silent_query _).bind fun slot => ?_
  refine (append_logsOnce slot event).bind fun _ => ?_
  exact Txn.silent_pure slot

theorem put_logsOnce (event : Event) : (put item event).LogsOnce item.Owns :=
  .ite (Txn.silent_refuse _).logsOnce (putNext_logsOnce event)

theorem create_logsOnce : (create item).LogsOnce item.Owns := by
  have hinit : (initIndex item).Silent := Txn.Keeps.silent (writes_initIndex (Key.offLog_sub item))
  refine (Txn.silent_query _).bind fun there => .refuse_if ?_
  refine (Txn.silent_lift _).bind fun partition => ?_
  refine hinit.bind fun _ => ?_
  exact append_logsOnce 0 _

theorem delete_logsOnce : (delete item).LogsOnce item.Owns :=
  (put_logsOnce _).bind fun _ =>
    Txn.Keeps.silent (writes_teardown (Key.offLog_sub item) Key.offLog_pointer)

theorem addAlias_logsOnce (x : ItemId) : (addAlias item x).LogsOnce item.Owns := by
  have hlink : (link item x).Silent :=
    Txn.Keeps.silent (writes_link (Key.offLog_pointer x) (Key.offLog_sub item .aliases))
  refine (Txn.silent_query _).bind fun taken => .refuse_if ?_
  exact (put_logsOnce _).bind fun _ => hlink

theorem removeAlias_logsOnce (x : ItemId) : (removeAlias item x).LogsOnce item.Owns := by
  have hunlink : (unlink item x).Silent :=
    Txn.Keeps.silent (writes_unlink (Key.offLog_pointer x) (Key.offLog_sub item .aliases))
  refine (Txn.silent_query _).bind fun target => .refuse_if ?_
  exact (put_logsOnce _).bind fun _ => hunlink

theorem silent_sync {σ : Type} (name : Bytes) (v : View σ) (initial : σ) :
    (sync item name v initial).Silent :=
  Txn.Keeps.silent (writes_sync name v initial fun name => Key.offLog_sub item (.view name))

end Item

namespace Registry

theorem ensure_logsOnce : ensure.LogsOnce registryItem.Owns :=
  (Txn.silent_query _).bind fun _ => .ite (Txn.silent_pure _).logsOnce Item.create_logsOnce

theorem append_logsOnce (change : Change) : (append change).LogsOnce registryItem.Owns :=
  (Txn.silent_lift _).bind fun event => Item.putNext_logsOnce event

end Registry

/-- Where the item of the registry is there, a mutation leaves what its append leaves, or nothing. -/
theorem Mutation.logs {m : Mutation} (hthere : Item.isThere s.keys registryItem = .ok true) :
    s.Logs registryItem.Owns (m.run.leaves s) := by
  have hagain := Registry.ensure_of_isThere hthere
  cases hrun : m.run s with
  | ok n t =>
    obtain ⟨r, u, hprepare, -, slot, happend, -⟩ := run_eq_ok.mp hrun
    obtain ⟨hensure, -⟩ := Registry.prepare_eq_ok.mp hprepare
    rw [hagain] at hensure
    cases hensure
    rw [Txn.leaves_of_ok hrun, ← Txn.leaves_of_ok happend]
    exact Registry.append_logsOnce _ s
  | error fault t =>
    rw [Txn.leaves_of_error hrun]
    rcases run_of_error hrun with hensure | ⟨u, hensure, hrest⟩ <;> rw [hagain] at hensure <;>
      cases hensure
    rcases hrest with rfl | happend
    · exact .refl _ _
    · rw [← Txn.leaves_of_error happend]
      exact Registry.append_logsOnce _ s

/-- An operation other than an append at a chosen time appends at most once, and one on an item to
the partition of the item. -/
theorem Op.logs {op : Op} (hready : op.Ready s.keys)
    (hop : ∀ p time event, op ≠ .logAt p time event) :
    s.Logs (fun id => ∀ item, op.item? = some item → item.Owns id) (op.run.leaves s) := by
  have hitem : ∀ {item : ItemId} {op : Op}, op.item? = some item →
      ∀ id, item.Owns id → ∀ other, op.item? = some other → other.Owns id := by
    intro item op hsome id hid other hother
    rw [hsome, Option.some.injEq] at hother
    exact hother ▸ hid
  cases op with
  | create item => exact (Item.create_logsOnce.map s).mono (hitem rfl)
  | put item event => exact ((Item.put_logsOnce event).map s).mono (hitem rfl)
  | addAlias item x => exact ((Item.addAlias_logsOnce x).map s).mono (hitem rfl)
  | removeAlias item x => exact ((Item.removeAlias_logsOnce x).map s).mono (hitem rfl)
  | delete item => exact (Item.delete_logsOnce.map s).mono (hitem rfl)
  | sync item name view initial =>
    exact (Item.silent_sync name view initial).logsOnce.map s
  | ensure => exact (Registry.ensure_logsOnce.map s).mono (hitem rfl)
  | mutate m =>
    have hlogs := Mutation.logs (m := m) hready
    rw [← Txn.leaves_map m.run Reply.number] at hlogs
    exact hlogs.mono (hitem rfl)
  | log p event => exact ((Log.put_logsOnce p event).map s).mono fun _ _ => nofun
  | logAt p time event => exact absurd rfl (hop p time event)

end Chronicle
