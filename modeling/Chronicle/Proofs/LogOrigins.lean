import Mathlib
import Chronicle.Proofs.AliasTable
import Chronicle.Proofs.EffectTakeover
import Chronicle.Proofs.Pagination
import Chronicle.Proofs.Primary

/-!
# Whose events a log holds

An operation on an item appends events of that item alone, to the partition of the item. So whatever
the log holds after a run of such operations is an event of one of their items, and what a page of it
has was there when the page was captured.
-/
namespace Chronicle

variable {P : ItemId → Prop} {keys : KeySpace} {s t : Session} {item : ItemId} {f : Effect}

namespace Log

/-- Every event in the log is one of an item in `P`, in the partition of the item. -/
def Attributed (P : ItemId → Prop) (keys : KeySpace) : Prop :=
  ∀ e, Has keys e → ∃ found, e.itemEvent = .ok found ∧ P found.item ∧
    found.item.tag = e.id.partition.toUInt16

theorem attributed_empty : Attributed P .empty := by
  intro e he
  rw [Has, KeySpace.stored?_empty] at he
  cases he

namespace Attributed

theorem effect (h : Attributed P keys) {e : LogEvent} (he : Has keys e) (hf : e.effect? = some f) :
    P f.item ∧ f.item.tag = e.id.partition.toUInt16 := by
  obtain ⟨found, hfound, hitem, htag⟩ := h e he
  obtain ⟨-, other, hother, hsome⟩ := LogEvent.effect?_eq_some hf
  rw [hfound, Except.ok.injEq] at hother
  subst hother
  rw [(ItemEvent.effect?_eq_some hsome).1]
  exact ⟨hitem, htag⟩

theorem congr {a b : KeySpace} (h : Attributed P a) (hsame : Same a b) : Attributed P b :=
  fun e he => h e ((hsame e.id).symm.trans he)

theorem insert (h : Attributed P keys) {e : LogEvent} {found : ItemEvent}
    (hfound : e.itemEvent = .ok found) (hitem : P found.item)
    (htag : found.item.tag = e.id.partition.toUInt16) : Attributed P (keys.withLog [e]) := by
  intro other hother
  rw [Has, KeySpace.withLog, List.foldl_cons, List.foldl_nil, KeySpace.stored?_insert] at hother
  split_ifs at hother with hkey
  · obtain rfl : e = other := by
      cases e
      cases other
      cases Key.log_injective hkey
      cases hother
      rfl
    exact ⟨found, hfound, hitem, htag⟩
  · exact h other hother

/-- What writes nothing to the log. -/
theorem of_writes {α : Type} {m : Txn α} {a : α} (h : Attributed P s.keys)
    (hm : ∀ {s₀ : Session}, m.Keeps (s₀.Writes Key.OffLog)) (hrun : m s = .ok a t) :
    Attributed P t.keys :=
  h.congr ((Txn.Keeps.writes_of_ok hm hrun).within.same_log Key.not_offLog_log)

end Attributed

end Log

/-! ## Operations -/

namespace Item

variable {slot : Nat} {event : Event} {v : Unit}

theorem attributed_append (h : Log.Attributed P s.keys) (hitem : P item)
    (hrun : append item slot event s = .ok v t) : Log.Attributed P t.keys := by
  obtain ⟨partition, payload, id, u, hpartition, hpayload, hput, hrecord⟩ := append_eq_ok hrun
  obtain ⟨-, rfl, -, -, rfl⟩ := Log.put_eq_ok hput
  rw [ItemId.partition_eq_ok] at hpartition
  have htag : item.tag = id.partition.toUInt16 := by
    rw [← UInt16.toNat_inj, hpartition, UInt8.toNat_toUInt16]
  refine (h.insert (e := ⟨event.kind, id, payload⟩) (LogEvent.itemEvent_of_encode hpayload) hitem
    htag).congr fun other => ?_
  obtain ⟨-, rfl⟩ := recordSlot_eq_ok hrecord
  exact (KeySpace.stored?_insert_of_ne _ _ (Key.sub_ne_log other item .version)).trans
    (KeySpace.stored?_insert_of_ne _ _ (Key.sub_ne_log other item (.slot _)))

theorem attributed_putNext (h : Log.Attributed P s.keys) (hitem : P item)
    (hrun : putNext item event s = .ok slot t) : Log.Attributed P t.keys :=
  attributed_append h hitem (putNext_eq_ok.mp hrun).2

theorem attributed_create (h : Log.Attributed P s.keys) (hitem : P item)
    (hrun : create item s = .ok v t) : Log.Attributed P t.keys := by
  obtain ⟨u, -, hinit, happend⟩ := create_eq_ok hrun
  exact attributed_append (h.of_writes (writes_initIndex (Key.offLog_sub item)) hinit) hitem happend

end Item

/-- An operation on an item puts an event of that item into its partition. -/
theorem Op.attributed {op : Op} {reply : Reply} (hready : op.Ready s.keys)
    (hitem : ∃ item, op.item? = some item ∧ P item) (h : Log.Attributed P s.keys)
    (hrun : op.run s = .ok reply t) : Log.Attributed P t.keys := by
  have hsub := Key.offLog_sub
  have hpointer := Key.offLog_pointer
  obtain ⟨item, hsome, hitem⟩ := hitem
  cases done hready hsome hrun with
  | create hcreate => exact Item.attributed_create h hitem hcreate
  | put hput => exact Item.attributed_putNext h hitem (Item.put_eq_ok.mp hput).2
  | addAlias hadd =>
    obtain ⟨slot, u, hput, hlink⟩ := Item.addAlias_eq_ok hadd
    exact (Item.attributed_putNext h hitem (Item.put_eq_ok.mp hput).2).of_writes
      (Item.writes_link (hpointer _) (hsub item .aliases)) hlink
  | removeAlias hremove =>
    obtain ⟨slot, u, -, hput, hunlink⟩ := Item.removeAlias_eq_ok hremove
    exact (Item.attributed_putNext h hitem (Item.put_eq_ok.mp hput).2).of_writes
      (Item.writes_unlink (hpointer _) (hsub item .aliases)) hunlink
  | delete hdelete =>
    obtain ⟨slot, u, hput, hteardown⟩ := Item.delete_eq_ok hdelete
    exact (Item.attributed_putNext h hitem (Item.put_eq_ok.mp hput).2).of_writes
      (Item.writes_teardown (hsub item) hpointer) hteardown
  | sync hsync => exact h.of_writes (Item.writes_sync _ _ _ fun name => hsub item (.view name)) hsync
  | found _ hsame => exact hsame ▸ h
  | ensure _ hcreate => exact Item.attributed_create h hitem hcreate
  | mutate _ hput => exact Item.attributed_putNext h hitem hput

/-! ## Runs -/

namespace Run.Reached

variable {clock : Clock} {trace : List Step}

theorem attributed (h : Reached clock trace s)
    (hitem : ∀ step ∈ trace, ∃ item, step.op.item? = some item ∧ P item) :
    Log.Attributed P s.keys := by
  induction h with
  | start => exact Log.attributed_empty
  | abort h hkeys _ _ ih => rw [hkeys]; exact ih hitem
  | step h hready hop ih =>
    have hbefore := ih fun step hstep => hitem step (List.mem_append_left _ hstep)
    exact Op.attributed hready (hitem _ (List.mem_append_right _ List.mem_cons_self)) hbefore hop

theorem wellFormed (h : Reached clock trace s) : Log.WellFormed s.keys := by
  induction h with
  | start => exact Log.wellFormed_empty
  | abort h hkeys _ _ ih => rw [hkeys]; exact ih
  | @step trace s t op reply h hready hop ih =>
    exact (Log.grows_of_writes (Txn.Keeps.writes_of_ok op.writes hop)).wellFormed ih

/-- What the first steps have left was left by a session of its own. -/
theorem stage (h : Reached clock trace s) (n : Nat) :
    ∃ u, Reached clock (trace.take n) u ∧ leftBy (trace.take n) = u.keys := by
  induction h with
  | start =>
    rw [List.take_nil]
    exact ⟨_, .start, rfl⟩
  | abort h _ _ _ ih => exact ih
  | @step trace s t op reply h hready hop ih =>
    rcases Nat.lt_or_ge trace.length n with hlt | hge
    · rw [List.take_of_length_le (by simpa using hlt)]
      exact ⟨t, h.step hready hop, leftBy_snoc _ _⟩
    · rw [List.take_append_of_le_length hge]
      exact ih

end Run.Reached

/-! ## Captured pages -/

theorem Log.mem_range {first last : EventId} {size : Nat} {page : Page (List LogEvent)}
    (hkeys : WellFormed keys) (hsize : 0 < size) (hrange : range keys first last size = .ok page)
    {e : LogEvent} (he : e ∈ page.events) : Has keys e ∧ e.id.partition = first.partition := by
  obtain ⟨entries, h⟩ := hkeys.exists_entries first
  have hpage := h.range_eq_ok hsize hrange
  have hmem : identified e ∈ entries := by
    cases hnext : page.next with
    | none =>
      rw [hnext] at hpage
      obtain ⟨rest, rfl, -⟩ := hpage
      exact List.mem_append_left _ (mem_map_identified.mpr he)
    | some id =>
      rw [hnext] at hpage
      obtain ⟨stored, rest, rfl, -⟩ := hpage
      exact List.mem_append_left _ (mem_map_identified.mpr he)
  obtain ⟨hhas, -, hpartition⟩ := h.mem.mp hmem
  exact ⟨hhas, hpartition⟩

theorem Log.size_pos_of_range {first last : EventId} {size : Nat} {page : Page (List LogEvent)}
    (hrange : range keys first last size = .ok page) : 0 < size := by
  rcases Nat.eq_zero_or_pos size with rfl | hsize
  · cases hrange
  · exact hsize

/-- The events of a page in a stage of a run. -/
structure Run.Captured (trace : List Step) (first : EventId) (page : List LogEvent) : Prop where
  ascending : page.Pairwise fun a b => a.id.Before b.id
  not_before : ∀ e ∈ page, ¬ e.id.Before first
  partition : ∀ e ∈ page, e.id.partition = first.partition
  effect : ∀ e ∈ page, ∀ f, e.effect? = some f →
    Items trace f.item ∧ f.item.tag = e.id.partition.toUInt16

/-- A page that is captured from any stage of a run of operations on items. -/
theorem Run.Reached.captured {clock : Clock} {trace : List Step} (h : Reached clock trace s)
    (hops : ∀ step ∈ trace, step.op.item? ≠ none) {n size : Nat} {first last : EventId}
    {page : Page (List LogEvent)}
    (hcapture : Replication.capture (leftBy (trace.take n)) first last size = .ok page) :
    Captured trace first page.events := by
  obtain ⟨u, hstage, hleft⟩ := h.stage n
  rw [hleft] at hcapture
  have hsize := Log.size_pos_of_range hcapture
  have hcovers := Log.covers_range hstage.wellFormed hsize hcapture
  have hmem : ∀ e ∈ page.events, Log.Has u.keys e ∧ e.id.partition = first.partition :=
    fun e he => Log.mem_range hstage.wellFormed hsize hcapture he
  have hattributed : Log.Attributed (Items trace) u.keys := hstage.attributed fun step hstep => by
    have hin := List.mem_of_mem_take hstep
    obtain ⟨item, hitem⟩ := Option.ne_none_iff_exists'.mp (hops step hin)
    exact ⟨item, hitem, step, hin, hitem⟩
  exact ⟨hcovers.ascending, hcovers.not_before, fun e he => (hmem e he).2,
    fun e he f hf => hattributed.effect (hmem e he).1 hf⟩

end Chronicle
