import Mathlib
import Chronicle.Proofs.Primary

/-!
# Shipping a log

A replica takes over the log of a primary page by page, each partition in its own order and the
partitions in any order. After every page it has of each partition exactly what the primary had
right after the step that appended the last event shipped so far.
-/
namespace Chronicle

variable {owner : ItemId → UInt8} {p q : UInt8} {a b : KeySpace} {u : Session}

/-! ## The same of a partition -/

/-- The two have the same of a partition: its log, the indexes of its items, and the aliases that
point at its items. -/
structure SamePartition (p : UInt8) (a b : KeySpace) : Prop where
  log : a.Agree (Key.partition p <+: ·) b
  index : a.Agree (Key.family p.toUInt16 <+: ·) b
  pointers : ∀ {x item : ItemId} {mark}, item.tag = p.toUInt16 →
    (a.stored? (Key.pointer x) = some (mark :: item.encode) ↔
      b.stored? (Key.pointer x) = some (mark :: item.encode))

/-- Pointers lead from aliases to items of the partitions that own them. -/
def PointersOwned (owner : ItemId → UInt8) (keys : KeySpace) : Prop :=
  ∀ {x stored}, keys.stored? (Key.pointer x) = some stored →
    ∃ item : ItemId, stored = 0 :: item.encode ∧ item.tag = (owner x).toUInt16

theorem PointersOwned.owner_eq (h : PointersOwned owner a) {x item : ItemId} {mark : UInt8}
    (htag : item.tag = p.toUInt16) (hx : a.stored? (Key.pointer x) = some (mark :: item.encode)) :
    owner x = p := by
  obtain ⟨other, hstored, hother⟩ := h hx
  rw [List.cons.injEq] at hstored
  rw [← ItemId.encode_injective hstored.2, htag] at hother
  exact (UInt8.toUInt16_inj.mp hother).symm

theorem SamePartition.of_agree (hlog : a.Agree (Key.partition p <+: ·) b)
    (hpart : a.Agree (Key.Part owner p) b) (ha : PointersOwned owner a)
    (hb : PointersOwned owner b) : SamePartition p a b := by
  refine ⟨hlog, fun key hkey => hpart key (.inl hkey), fun htag => ⟨fun hx => ?_, fun hx => ?_⟩⟩
  · rw [← hpart _ (Key.part_pointer (ha.owner_eq htag hx))]
    exact hx
  · rw [hpart _ (Key.part_pointer (hb.owner_eq htag hx))]
    exact hx

/-! ## Shipments -/

/-- A replica, with what has been shipped of each partition, and where to go on there. -/
structure Shipment where
  replica : Session
  shipped : UInt8 → List LogEvent
  next : UInt8 → Option EventId

namespace Shipment

/-- An empty replica. -/
def start (clock : Clock) : Shipment :=
  ⟨Session.start clock, fun _ => [], fun p => some (EventId.first p)⟩

/-- Ships the next page of a partition, unless the partition has been shipped to its end. The page
is taken over in one transaction. -/
def page (primary : KeySpace) (size : Nat) (s : Shipment) (p : UInt8) : Outcome Shipment :=
  (s.next p).elim (.ok s) fun first => do
    let page ← Replication.capture primary first (EventId.last p) size
    let taken := s.replica.update (Replication.apply page.events)
    let _ ← taken.1
    return ⟨taken.2, Function.update s.shipped p (s.shipped p ++ page.events),
      Function.update s.next p page.next⟩

theorem page_eq {primary : KeySpace} {size n : Nat} {s : Shipment} {p : UInt8} {first : EventId}
    {captured : Page (List LogEvent)} {w : Session} (hnext : s.next p = some first)
    (hcapture : Replication.capture primary first (EventId.last p) size = .ok captured)
    (hupdate : s.replica.update (Replication.apply captured.events) = (.ok n, w)) :
    page primary size s p = .ok ⟨w, Function.update s.shipped p (s.shipped p ++ captured.events),
      Function.update s.next p captured.next⟩ := by
  rw [page, hnext, Option.elim_some, hcapture]
  simp only [bind, Except.bind, hupdate]
  rfl

/-- Ships a page of one partition after the other. -/
def ship (primary : KeySpace) (size : Nat) (schedule : List UInt8) (s : Shipment) :
    Outcome Shipment :=
  schedule.foldlM (page primary size) s

/-- What holds after so many pages of each partition holds after more, if every page can be shipped
and preserves it. -/
theorem ship_of_page {primary : KeySpace} {size : Nat} {schedule : List UInt8} {s : Shipment}
    {pages : UInt8 → Nat} (Holds : (UInt8 → Nat) → Shipment → Prop)
    (hpage : ∀ p ∈ schedule, ∀ pages s, Holds pages s → ∃ t, page primary size s p = .ok t ∧
      Holds (Function.update pages p (pages p + 1)) t) (h : Holds pages s) :
    ∃ t, ship primary size schedule s = .ok t ∧ Holds (fun p => pages p + schedule.count p) t := by
  induction schedule generalizing s pages with
  | nil => exact ⟨s, rfl, h⟩
  | cons p schedule ih =>
    obtain ⟨u, hu, hholds⟩ := hpage p List.mem_cons_self pages s h
    obtain ⟨t, hship, ht⟩ := ih (fun q hq => hpage q (List.mem_cons_of_mem p hq)) hholds
    have hcount : (fun q => Function.update pages p (pages p + 1) q + schedule.count q) =
        fun q => pages q + (p :: schedule).count q := by
      funext q
      by_cases hq : q = p
      · subst hq
        rw [Function.update_self, List.count_cons_self]
        omega
      · rw [Function.update_of_ne hq, List.count_cons_of_ne (Ne.symm hq)]
    rw [hcount] at ht
    refine ⟨t, ?_, ht⟩
    rw [ship, List.foldlM_cons, hu]
    exact hship

end Shipment

/-! ## Steps taken over -/

theorem Txn.forM_append_eq_ok {α : Type} {f : α → Txn Unit} {xs ys : List α} {s t : Session} :
    (xs ++ ys).forM f s = .ok () t ↔ ∃ u, xs.forM f s = .ok () u ∧ ys.forM f u = .ok () t := by
  induction xs generalizing s with
  | nil =>
    constructor
    · exact fun h => ⟨s, rfl, h⟩
    · rintro ⟨u, hnil, h⟩
      cases hnil
      exact h
  | cons x xs ih =>
    show (f x >>= fun _ => (xs ++ ys).forM f) s = _ ↔ ∃ u, (f x >>= fun _ => xs.forM f) s = _ ∧ _
    simp only [Txn.bind_eq_ok, ih]
    constructor
    · rintro ⟨_, v, hx, u, hxs, hys⟩
      exact ⟨u, ⟨_, v, hx, hxs⟩, hys⟩
    · rintro ⟨u, ⟨_, v, hx, hxs⟩, hys⟩
      exact ⟨_, v, hx, u, hxs, hys⟩

/-- Some of the steps of a partition, taken over from their events. -/
theorem Run.Lineage.takeover {xs ys zs : List Step} (h : Run.Lineage owner p (xs ++ (ys ++ zs)))
    (hu : (Run.leftBy xs).Agree (Key.Part owner p) u.keys) :
    ∃ w, ((ys.filterMap Step.added).filter fun e => Kind.isItem e.mark).forM Item.replicate u =
        .ok () w ∧ (Run.leftBy (xs ++ ys)).Agree (Key.Part owner p) w.keys ∧
      u.keys.Agree (fun key => ¬ Key.Part owner p key) w.keys ∧ w.clock = u.clock := by
  induction ys generalizing xs u with
  | nil => exact ⟨u, rfl, by rwa [List.append_nil], .refl _, rfl⟩
  | cons step ys ih =>
    have hfollows := h xs step (ys ++ zs) rfl
    obtain ⟨e, hadded, rfl, htaken⟩ := hfollows.event
    obtain ⟨v, hv, hpart, hrest, hclock⟩ := htaken.elsewhere (hfollows.part.symm.trans hu)
    rw [← Run.leftBy_snoc xs] at hpart
    rw [List.cons_append, List.append_cons] at h
    obtain ⟨w, hw, hpart', hrest', hclock'⟩ := ih h hpart
    refine ⟨w, ?_, by simpa using hpart', hrest.trans hrest', hclock'.trans hclock⟩
    rw [List.filterMap_cons_some hadded, ← List.singleton_append, List.filter_append,
      Txn.forM_append_eq_ok]
    exact ⟨v, hv, hw⟩

namespace Shipment

variable {clock : Clock} {trace : List Step} {n size : Nat} {pages : UInt8 → Nat} {s t : Shipment}
  {primary : Session}

/-- Of the partition `n` events have been shipped, or all if there are no more, and the next page
begins after them. -/
structure Cursor (trace : List Step) (p : UInt8) (n : Nat) (s : Shipment) : Prop where
  shipped : s.shipped p = (Run.appended p trace).take n
  next : s.next p = none ∧ (Run.appended p trace).length ≤ n ∨ ∃ first,
    s.next p = some first ∧ first.partition = p ∧ Log.Starts (Run.appended p trace) n first

namespace Cursor

theorem start (hlists : Log.Lists primary.keys p (Run.appended p trace)) (replicaClock : Clock) :
    Cursor trace p 0 (Shipment.start replicaClock) :=
  ⟨rfl, .inr ⟨_, rfl, rfl, hlists.starts_first⟩⟩

/-- The page that is captured next. -/
theorem capture (h : Cursor trace p n s) (hlists : Log.Lists primary.keys p (Run.appended p trace))
    (hsize : 0 < size) {first : EventId} (hnext : s.next p = some first) :
    Replication.capture primary.keys first (EventId.last p) size =
      .ok ⟨((Run.appended p trace).drop n).take size,
        ((Run.appended p trace).drop (n + size)).head?.map LogEvent.id⟩ := by
  obtain ⟨hpartition, hstarts⟩ : first.partition = p ∧
      Log.Starts (Run.appended p trace) n first := by
    rcases h.next with ⟨hnone, -⟩ | ⟨other, hother, hrest⟩
    · rw [hnext] at hnone
      cases hnone
    · rw [hnext, Option.some.injEq] at hother
      rwa [hother]
  have hcapture := hlists.range_eq hsize hpartition hstarts
  rwa [List.drop_drop] at hcapture

/-- The page brings the next events of the partition. -/
theorem next_page (h : Cursor trace p n s)
    (hlists : Log.Lists primary.keys p (Run.appended p trace))
    (hshipped : t.shipped p = s.shipped p ++ ((Run.appended p trace).drop n).take size)
    (hnext : t.next p = ((Run.appended p trace).drop (n + size)).head?.map LogEvent.id) :
    Cursor trace p (n + size) t := by
  refine ⟨by rw [hshipped, h.shipped, List.take_add], ?_⟩
  rw [hnext]
  rcases hhead : ((Run.appended p trace).drop (n + size)).head? with _ | e
  · exact .inl ⟨rfl, List.drop_eq_nil_iff.mp (List.head?_eq_none_iff.mp hhead)⟩
  · refine .inr ⟨e.id, rfl, ?_, hlists.starts_at hhead⟩
    exact hlists.partition e (List.mem_of_mem_drop (List.mem_of_mem_head? hhead))

theorem other (h : Cursor trace q n s) (hshipped : t.shipped q = s.shipped q)
    (hnext : t.next q = s.next q) : Cursor trace q n t :=
  ⟨hshipped.trans h.shipped, hnext ▸ h.next⟩

/-- The next page of a partition is shipped if the replica can take over its events. There may be
none left. -/
theorem page {m : Nat} {w : Session} (h : ∀ q, Cursor trace q (size * pages q) s)
    (hlists : ∀ q, Log.Lists primary.keys q (Run.appended q trace)) (hsize : 0 < size)
    (hupdate : s.replica.update
      (Replication.apply (((Run.appended p trace).drop (size * pages p)).take size)) = (.ok m, w)) :
    ∃ t, Shipment.page primary.keys size s p = .ok t ∧ t.replica = w ∧
      ∀ q, Cursor trace q (size * Function.update pages p (pages p + 1) q) t := by
  have hp := h p
  have hpages : ∀ {t : Shipment}, Cursor trace p (size * pages p + size) t →
      (∀ q, q ≠ p → Cursor trace q (size * pages q) t) →
      ∀ q, Cursor trace q (size * Function.update pages p (pages p + 1) q) t := by
    intro t hself hother q
    by_cases hq : q = p
    · subst hq
      rwa [Function.update_self, Nat.mul_succ]
    · rw [Function.update_of_ne hq]
      exact hother q hq
  rcases hnext : s.next p with _ | first
  · obtain ⟨-, hlength⟩ | ⟨first, hfirst, -⟩ := hp.next
    · rw [List.drop_of_length_le hlength, List.take_nil] at hupdate
      refine ⟨s, by rw [Shipment.page, hnext]; rfl, (Prod.mk.inj hupdate).2, hpages ?_ fun q _ => h q⟩
      refine ⟨?_, .inl ⟨hnext, by omega⟩⟩
      rw [hp.shipped, List.take_of_length_le hlength, List.take_of_length_le (by omega)]
    · rw [hnext] at hfirst
      cases hfirst
  · refine ⟨_, page_eq hnext (hp.capture (hlists p) hsize hnext) hupdate, rfl, hpages ?_ fun q hq => ?_⟩
    · exact hp.next_page (hlists p) (Function.update_self _ _ _) (Function.update_self _ _ _)
    · exact (h q).other (Function.update_of_ne hq _ _) (Function.update_of_ne hq _ _)

end Cursor

/-- Of the partition so much has been shipped, and the replica stands where the step that has
appended the last of it has left the primary. -/
structure UpTo (owner : ItemId → UInt8) (trace : List Step) (p : UInt8) (n : Nat) (s : Shipment) :
    Prop extends Cursor trace p n s where
  log : (KeySpace.empty.withLog (s.shipped p)).Agree (Key.partition p <+: ·) s.replica.keys
  part : (Run.leftBy ((Run.stepsOf p trace).take n)).Agree (Key.Part owner p) s.replica.keys

theorem upTo_start (h : Primary owner clock trace primary) (hclock : Monotone clock.readings)
    (replicaClock : Clock) (p : UInt8) : UpTo owner trace p 0 (start replicaClock) :=
  ⟨.start (h.logging.lists hclock p) replicaClock, .refl _, .refl _⟩

/-- The replica has of the partition what the last of the steps shipped has left. -/
theorem UpTo.samePartition (h : UpTo owner trace p n s)
    (hlineage : Run.Lineage owner p (Run.stepsOf p trace))
    (hpointers : PointersOwned owner s.replica.keys) :
    SamePartition p (Run.leftBy ((Run.stepsOf p trace).take n)) s.replica.keys := by
  have hlog := (hlineage.take n).log
  rw [Run.appended_take, ← h.shipped] at hlog
  exact .of_agree (hlog.symm.trans h.log) h.part (hlineage.take n).owned.pointer hpointers

/-- What belongs to other partitions stays. -/
theorem UpTo.other (h : UpTo owner trace q n s) (hpq : p ≠ q) (hcursor : Cursor trace q n t)
    {events : List LogEvent} (hevents : ∀ e ∈ events, e.id.partition = p)
    (hkeys : (s.replica.keys.withLog events).Agree (fun key => ¬ Key.Part owner p key)
      t.replica.keys) : UpTo owner trace q n t := by
  refine ⟨hcursor, ?_, ?_⟩
  · rw [hcursor.shipped, ← h.shipped]
    refine h.log.trans fun key hkey => ?_
    rw [← hkeys key (Key.not_part_of_partition hkey)]
    refine (KeySpace.stored?_withLog_of_ne _ fun e he heq => hpq ?_).symm
    rw [← heq, Key.partition_prefix_log] at hkey
    exact (hevents e he).symm.trans hkey
  · refine (h.part.trans (LogEvent.TakenOver.withLog_agree _ events)).trans fun key hkey => ?_
    exact hkeys key fun hpart => hpq (hpart.unique hkey)

/-- The page brings the next events of its partition. -/
theorem UpTo.next_page (h : UpTo owner trace p n s) (hcursor : Cursor trace p (n + size) t)
    (hkeys : (s.replica.keys.withLog (((Run.appended p trace).drop n).take size)).Agree
      (fun key => ¬ Key.Part owner p key) t.replica.keys)
    (hpart : (Run.leftBy ((Run.stepsOf p trace).take (n + size))).Agree (Key.Part owner p)
      t.replica.keys) : UpTo owner trace p (n + size) t := by
  refine ⟨hcursor, ?_, hpart⟩
  rw [hcursor.shipped, List.take_add, ← h.shipped, KeySpace.withLog_append]
  exact (h.log.withLog _).trans fun key hkey => hkeys key (Key.not_part_of_partition hkey)

/-- The replica can take over the next events, since the steps that have appended them go on where
it stands. -/
theorem UpTo.takeover (h : UpTo owner trace p n s)
    (hlineage : Run.Lineage owner p (Run.stepsOf p trace)) {events : List LogEvent}
    (hevents : events = ((Run.appended p trace).drop n).take size) :
    ∃ w, s.replica.update (Replication.apply events) = (.ok events.length, w) ∧
      (s.replica.keys.withLog events).Agree (fun key => ¬ Key.Part owner p key) w.keys ∧
      (Run.leftBy ((Run.stepsOf p trace).take (n + size))).Agree (Key.Part owner p) w.keys := by
  rw [← List.take_append_drop n (Run.stepsOf p trace),
    ← List.take_append_drop size ((Run.stepsOf p trace).drop n)] at hlineage
  have hstands : (Run.leftBy ((Run.stepsOf p trace).take n)).Agree (Key.Part owner p)
      (s.replica.keys.withLog events) :=
    h.part.trans (LogEvent.TakenOver.withLog_agree _ events)
  obtain ⟨w, hw, hpart, hkeys, -⟩ :=
    hlineage.takeover (u := { s.replica with keys := s.replica.keys.withLog events }) hstands
  rw [Run.appended_drop_take, ← hevents] at hw
  rw [← List.take_add] at hpart
  refine ⟨w, ?_, hkeys, hpart⟩
  exact Txn.update_eq_ok.mpr (Replication.apply_eq_ok.mpr ⟨rfl, hw⟩)

/-- So many pages of each partition have been shipped. -/
structure Faithful (owner : ItemId → UInt8) (trace : List Step) (size : Nat) (pages : UInt8 → Nat)
    (s : Shipment) : Prop where
  upTo : ∀ p, UpTo owner trace p (size * pages p) s
  covered : Covered owner s.replica.keys

/-- A page of a partition can be shipped. -/
theorem Faithful.page (h : Faithful owner trace size pages s)
    (hprimary : Primary owner clock trace primary) (hclock : Monotone clock.readings)
    (hsize : 0 < size) (p : UInt8) : ∃ t, Shipment.page primary.keys size s p = .ok t ∧
      Faithful owner trace size (Function.update pages p (pages p + 1)) t := by
  have hlists := fun q => hprimary.logging.lists hclock q
  obtain ⟨w, hupdate, hkeys, hpart⟩ := (h.upTo p).takeover (hprimary.lineage p).1 rfl
  obtain ⟨t, hpage, rfl, hcursor⟩ := Cursor.page (fun q => (h.upTo q).toCursor) hlists hsize hupdate
  refine ⟨t, hpage, fun q => ?_, h.covered.of_withLog hkeys⟩
  have hq_cursor := hcursor q
  by_cases hq : q = p
  · subst hq
    rw [Function.update_self, Nat.mul_succ] at hq_cursor ⊢
    exact (h.upTo q).next_page hq_cursor hkeys hpart
  · rw [Function.update_of_ne hq] at hq_cursor ⊢
    refine (h.upTo q).other (Ne.symm hq) hq_cursor (fun e he => (hlists p).partition e ?_) hkeys
    exact List.mem_of_mem_drop (List.mem_of_mem_take he)

/-- Pages of any partitions can be shipped in any order. -/
theorem Faithful.ship (h : Faithful owner trace size pages s)
    (hprimary : Primary owner clock trace primary) (hclock : Monotone clock.readings)
    (hsize : 0 < size) (schedule : List UInt8) :
    ∃ t, Shipment.ship primary.keys size schedule s = .ok t ∧
      Faithful owner trace size (fun p => pages p + schedule.count p) t :=
  ship_of_page (Faithful owner trace size) (fun p _ _ _ h => h.page hprimary hclock hsize p) h

theorem faithful_start (h : Primary owner clock trace primary) (hclock : Monotone clock.readings)
    (size : Nat) (replicaClock : Clock) :
    Faithful owner trace size (fun _ => 0) (start replicaClock) :=
  ⟨fun p => upTo_start h hclock replicaClock p,
    fun key hstored => absurd (KeySpace.stored?_empty key) hstored⟩

namespace Faithful

variable (h : Faithful owner trace size pages s) (hprimary : Primary owner clock trace primary)

include h hprimary

theorem pointersOwned : PointersOwned owner s.replica.keys := by
  intro x stored hx
  rw [← (h.upTo (owner x)).part _ (Key.part_pointer rfl)] at hx
  exact ((hprimary.lineage _).1.take _).owned.pointer hx

/-- A partition of which everything has been shipped is the same in primary and replica. -/
theorem agree_of_all {p : UInt8} (hall : s.shipped p = Run.appended p trace) :
    primary.keys.Agree (Key.partition p <+: ·) s.replica.keys ∧
      primary.keys.Agree (Key.Part owner p) s.replica.keys := by
  have hshipped := (h.upTo p).shipped
  have hlog := (h.upTo p).log
  have hpart := (h.upTo p).part
  rw [hall, eq_comm, List.take_eq_self_iff, Run.length_appended] at hshipped
  rw [hall] at hlog
  rw [List.take_of_length_le hshipped] at hpart
  exact ⟨(hprimary.logging.log_agree p).symm.trans hlog, (hprimary.lineage p).2.symm.trans hpart⟩

/-- When everything has been shipped, the replica has what the primary has. -/
theorem keys_eq_of_all (hall : ∀ p, s.shipped p = Run.appended p trace) :
    s.replica.keys = primary.keys := by
  refine KeySpace.ext_stored? fun key => ?_
  by_cases hcovered : ∃ p, Key.partition p <+: key ∨ Key.Part owner p key
  · obtain ⟨p, hlog | hpart⟩ := hcovered
    · exact ((h.agree_of_all hprimary (hall p)).1 key hlog).symm
    · exact ((h.agree_of_all hprimary (hall p)).2 key hpart).symm
  · have hnone : ∀ {keys : KeySpace}, Covered owner keys → keys.stored? key = none := by
      intro keys hkeys
      by_contra hstored
      exact hcovered (hkeys key hstored)
    rw [hnone h.covered, hnone hprimary.covered]

end Faithful

end Shipment

/-! ## Shipping a run -/

namespace Run

variable {trace : List Step}

/-- No alias is used by items of two partitions. -/
def AliasesApart (trace : List Step) : Prop :=
  ∀ step ∈ trace, ∀ other ∈ trace, ∀ a b x, step.op = .addAlias a x → other.op = .addAlias b x →
    a.tag = b.tag

theorem AliasesApart.exists_owner (h : AliasesApart trace) : ∃ owner : ItemId → UInt8,
    ∀ step ∈ trace, ∀ item x, step.op = .addAlias item x → owner x = item.tag.toUInt8 := by
  have hchoice : ∀ x, ∃ p : UInt8, ∀ step ∈ trace, ∀ item, step.op = .addAlias item x →
      p = item.tag.toUInt8 := by
    intro x
    by_cases hx : ∃ step ∈ trace, ∃ item, step.op = .addAlias item x
    · obtain ⟨step, hstep, item, hop⟩ := hx
      exact ⟨item.tag.toUInt8, fun other hother b hb => by rw [h step hstep other hother item b x hop hb]⟩
    · exact ⟨0, fun step hstep item hop => absurd ⟨step, hstep, item, hop⟩ hx⟩
  choose owner howner using hchoice
  exact ⟨owner, fun step hstep item x hop => howner x step hstep item hop⟩

theorem shippable_of_mem_trace {txns : List (List Op)} {clock : Clock}
    (h : ∀ ops ∈ txns, ∀ op ∈ ops, op.Shippable) {step : Step} (hstep : step ∈ Run.trace txns clock) :
    step.op.Shippable :=
  forall_mem_trace (fun _ _ => trivial) h step hstep

/-- Whatever pages of the log of a primary have been shipped, the replica has of each partition what
the primary had right after the step that appended the last event shipped. When all events have
been shipped it has what the primary has. -/
theorem replica_equals_primary (txns : List (List Op)) (clock : Clock)
    (hops : ∀ ops ∈ txns, ∀ op ∈ ops, op.Shippable) (hclock : Monotone clock.readings)
    (haliases : AliasesApart (Run.trace txns clock)) {size : Nat} (hsize : 1 ≤ size)
    (replicaClock : Clock) (schedule : List UInt8) :
    ∃ t, Shipment.ship (result txns clock) size schedule (.start replicaClock) = .ok t ∧
      (∀ p, t.shipped p = (appended p (Run.trace txns clock)).take (size * schedule.count p) ∧
        (t.shipped p = [] → SamePartition p .empty t.replica.keys) ∧
        (∀ e, (t.shipped p).getLast? = some e → ∃ step ∈ Run.trace txns clock,
          step.added = some e ∧ SamePartition p step.after t.replica.keys) ∧
        (t.shipped p = appended p (Run.trace txns clock) →
          SamePartition p (result txns clock) t.replica.keys)) ∧
      ((∀ p, t.shipped p = appended p (Run.trace txns clock)) →
        t.replica.keys = result txns clock) := by
  obtain ⟨owner, howner⟩ := haliases.exists_owner
  have hprimary : Primary owner clock (Run.trace txns clock) (run txns (.start clock)).2 :=
    .of_reached (reached txns clock) (fun step hstep => shippable_of_mem_trace hops hstep) howner
  obtain ⟨t, hship, ht⟩ := (Shipment.faithful_start hprimary hclock size replicaClock).ship hprimary
    hclock hsize schedule
  simp only [Nat.zero_add] at ht
  refine ⟨t, hship, fun p => ?_, ht.keys_eq_of_all hprimary⟩
  have hpointers : PointersOwned owner t.replica.keys := ht.pointersOwned hprimary
  have hlineage := (hprimary.lineage p).1
  have hsame := (ht.upTo p).samePartition hlineage hpointers
  have hshipped := (ht.upTo p).shipped
  obtain ⟨hempty, hstep⟩ := (hlineage.take (size * schedule.count p)).leftBy_eq
  rw [appended_take, ← hshipped] at hempty hstep
  refine ⟨hshipped, fun hnil => ?_, fun e he => ?_, fun hall => ?_⟩
  · rw [← hempty hnil]
    exact hsame
  · obtain ⟨step, hmem, hadded, hleft⟩ := hstep e he
    refine ⟨step, (List.mem_filter.mp (List.mem_of_mem_take hmem)).1, hadded, ?_⟩
    rw [← hleft]
    exact hsame
  · obtain ⟨hlog, hpart⟩ := ht.agree_of_all hprimary hall
    exact .of_agree hlog hpart hprimary.owned.pointer hpointers

/-- Items in two partitions, one with an alias, and one deleted again. -/
def twoPartitions (a b x : ItemId) : List (List Op) :=
  [[.create a, .create b, .addAlias a x], [.put b (Event.entity [] []), .create a],
    [.delete b, .log 1 (.new 0 [])]]

theorem aliasesApart_twoPartitions (a b x : ItemId) (clock : Clock) :
    AliasesApart (Run.trace (twoPartitions a b x) clock) := by
  have hadd : ∀ step ∈ Run.trace (twoPartitions a b x) clock, ∀ item y,
      step.op = .addAlias item y → item = a := by
    intro step hstep item y heq
    obtain ⟨ops, hops, op, hop, hstage⟩ := op_mem_of_mem_trace hstep
    simp only [twoPartitions, List.mem_cons, List.not_mem_nil, or_false] at hops
    rcases hops with rfl | rfl | rfl
    all_goals
      simp only [List.mem_cons, List.not_mem_nil, or_false] at hop
      rcases hop with rfl | rfl | rfl
    all_goals
      rw [List.mem_singleton.mp hstage] at heq
      cases heq
    rfl
  intro step hstep other hother c d y hc hd
  rw [hadd step hstep c y hc, hadd other hother d y hd]

theorem shippable_twoPartitions (a b x : ItemId) :
    ∀ ops ∈ twoPartitions a b x, ∀ op ∈ ops, op.Shippable := by
  intro ops hops op hop
  simp only [twoPartitions, List.mem_cons, List.not_mem_nil, or_false] at hops
  rcases hops with rfl | rfl | rfl
  all_goals
    simp only [List.mem_cons, List.not_mem_nil, or_false] at hop
    rcases hop with rfl | rfl | rfl
  all_goals trivial

/-- Three pages of two events ship both partitions to their ends. -/
theorem replica_equals_twoPartitions :
    (appended 1 (Run.trace (twoPartitions ⟨1, [120]⟩ ⟨2, [121]⟩ ⟨1, [122]⟩) (.steady 5 1))).length =
        3 ∧
      (appended 2 (Run.trace (twoPartitions ⟨1, [120]⟩ ⟨2, [121]⟩ ⟨1, [122]⟩) (.steady 5 1))).length =
        2 ∧
      ∃ t, Shipment.ship (result (twoPartitions ⟨1, [120]⟩ ⟨2, [121]⟩ ⟨1, [122]⟩) (.steady 5 1)) 2
        [1, 2, 1] (.start (.steady 0 1)) = .ok t ∧
        SamePartition 1 (result (twoPartitions ⟨1, [120]⟩ ⟨2, [121]⟩ ⟨1, [122]⟩) (.steady 5 1))
          t.replica.keys ∧
        SamePartition 2 (result (twoPartitions ⟨1, [120]⟩ ⟨2, [121]⟩ ⟨1, [122]⟩) (.steady 5 1))
          t.replica.keys := by
  have hfirst : (appended 1 (Run.trace (twoPartitions ⟨1, [120]⟩ ⟨2, [121]⟩ ⟨1, [122]⟩)
      (.steady 5 1))).length = 3 := by decide +kernel
  have hsecond : (appended 2 (Run.trace (twoPartitions ⟨1, [120]⟩ ⟨2, [121]⟩ ⟨1, [122]⟩)
      (.steady 5 1))).length = 2 := by decide +kernel
  obtain ⟨t, hship, ht⟩ := replica_equals_primary (twoPartitions ⟨1, [120]⟩ ⟨2, [121]⟩ ⟨1, [122]⟩)
    (.steady 5 1) (shippable_twoPartitions _ _ _) (monotone_steady 5 1)
    (aliasesApart_twoPartitions _ _ _ _) (by decide : 1 ≤ 2) (.steady 0 1) [1, 2, 1]
  refine ⟨hfirst, hsecond, t, hship, (ht.1 1).2.2.2 ?_, (ht.1 2).2.2.2 ?_⟩
  · rw [(ht.1 1).1, List.take_of_length_le]
    rw [hfirst]
    decide
  · rw [(ht.1 2).1, List.take_of_length_le]
    rw [hsecond]
    decide

end Run
end Chronicle
