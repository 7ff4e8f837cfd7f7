import Mathlib
import Chronicle.Proofs.Replay

/-!
# Pages of the log

A partition of the log is its events in the order of their identities, and the pages read one
after the other are the parts that this list is cut into.
-/
namespace Chronicle

/-! ## Sorted entries -/

namespace Bytes

theorem compare_cons_nil (a : UInt8) (xs : Bytes) : compare (a :: xs) [] = .gt := rfl

/-- What lies between two byte strings begins with all that both begin with. -/
theorem isPrefix_of_between {stem a b c : Bytes} (ha : stem <+: a) (hc : stem <+: c)
    (hab : compare a b ≠ .gt) (hbc : compare b c ≠ .gt) : stem <+: b := by
  induction stem generalizing a b c with
  | nil => exact List.nil_prefix
  | cons x stem ih =>
    obtain ⟨a, rfl⟩ := ha
    obtain ⟨c, rfl⟩ := hc
    rw [List.cons_append] at hab hbc
    cases b with
    | nil => exact absurd (compare_cons_nil _ _) hab
    | cons y b =>
      rw [compare_cons] at hab hbc
      have hxy : compare x y ≠ .gt := fun h => by simp [h] at hab
      have hyx : compare y x ≠ .gt := fun h => by simp [h] at hbc
      have heq : compare x y = .eq := by
        rw [Std.OrientedOrd.eq_swap (a := y)] at hyx
        cases h : compare x y with
        | lt => rw [h] at hyx; exact absurd rfl hyx
        | eq => rfl
        | gt => exact absurd h hxy
      obtain rfl : x = y := Std.LawfulEqCmp.compare_eq_iff_eq.mp heq
      rw [heq] at hab hbc
      obtain ⟨rest, rfl⟩ := ih (List.prefix_append _ _) (List.prefix_append _ _) hab hbc
      exact List.prefix_append _ _

end Bytes

namespace KeySpace

/-- In the order of their keys. -/
def Ordered (entries : List (Bytes × Bytes)) : Prop :=
  entries.Pairwise fun a b => compare a.1 b.1 = .lt

theorem ordered_toList (keys : KeySpace) : Ordered keys.toList :=
  Std.ExtTreeMap.ordered_keys_toList

/-- Lists with the same members are equal if both are sorted in the same way. -/
theorem eq_of_mem_iff {α : Type} {r : α → α → Prop} (hasymm : ∀ a b, r a b → ¬ r b a)
    {xs ys : List α} (hxs : xs.Pairwise r) (hys : ys.Pairwise r) (h : ∀ a, a ∈ xs ↔ a ∈ ys) :
    xs = ys := by
  have hirrefl : Std.Irrefl r := ⟨fun a ha => hasymm a a ha ha⟩
  have hantisymm : Std.Antisymm r := ⟨fun a b hab hba => absurd hba (hasymm a b hab)⟩
  exact List.Subset.antisymm_of_pairwise hxs hys (fun a ha => (h a).mp ha) fun a ha => (h a).mpr ha

theorem Ordered.eq_of_mem_iff {xs ys : List (Bytes × Bytes)} (hxs : Ordered xs) (hys : Ordered ys)
    (h : ∀ entry, entry ∈ xs ↔ entry ∈ ys) : xs = ys := by
  refine KeySpace.eq_of_mem_iff (fun a b hab hba => ?_) hxs hys h
  rw [Std.OrientedOrd.eq_swap (a := a.1), hba] at hab
  cases hab

theorem takeWhile_eq_filter {α : Type} {p : α → Bool} {xs : List α}
    (h : xs.Pairwise fun a b => p b = true → p a = true) : xs.takeWhile p = xs.filter p := by
  induction xs with
  | nil => rfl
  | cons x xs ih =>
    obtain ⟨hx, hxs⟩ := List.pairwise_cons.mp h
    by_cases hp : p x = true
    · rw [List.takeWhile_cons_of_pos hp, List.filter_cons_of_pos hp, ih hxs]
    · rw [List.takeWhile_cons_of_neg hp, List.filter_cons_of_neg hp, eq_comm,
        List.filter_eq_nil_iff]
      exact fun y hy hpy => hp (hx y hy hpy)

/-- A scan sees the entries from its start on whose keys begin with its stem. -/
theorem mem_scan {keys : KeySpace} {start stem key stored : Bytes} (hstart : stem <+: start) :
    (key, stored) ∈ keys.scan start stem ↔
      keys.stored? key = some stored ∧ compare start key ≠ .gt ∧ stem <+: key := by
  have hge : ∀ other : Bytes, (compare other start).isGE = true ↔ compare start other ≠ .gt := by
    intro other
    rw [Std.OrientedOrd.eq_swap (a := other)]
    cases compare start other <;> simp
  have hprefix : (keys.upFrom start).Pairwise fun a b =>
      stem.isPrefixOf b.1 = true → stem.isPrefixOf a.1 = true := by
    refine ((keys.ordered_toList).filter _).imp_of_mem fun {a b} ha _ hab hb => ?_
    rw [List.isPrefixOf_iff_prefix] at hb ⊢
    refine Bytes.isPrefix_of_between hstart hb ((hge _).mp (List.mem_filter.mp ha).2) ?_
    rw [hab]
    decide
  rw [scan, takeWhile_eq_filter hprefix, upFrom, List.mem_filter, List.mem_filter, mem_toList, hge,
    List.isPrefixOf_iff_prefix, and_assoc]

theorem ordered_scan (keys : KeySpace) (start stem : Bytes) : Ordered (keys.scan start stem) :=
  ((keys.ordered_toList).filter _).sublist (List.takeWhile_sublist _)

end KeySpace

/-! ## The order of identities -/

namespace EventId

/-- Comes first in the log. -/
def Before (a b : EventId) : Prop := compare a b = .lt

theorem compare_log (a b : EventId) : compare (Key.log a) (Key.log b) = compare a b := by
  have hpartition : compare (Bytes.bigEndian 2 a.partition.toNat)
      (Bytes.bigEndian 2 b.partition.toNat) = compare a.partition.toNat b.partition.toNat :=
    Bytes.compare_bigEndian (Bytes.toNat_byte_lt_capacity_two _) (Bytes.toNat_byte_lt_capacity_two _)
  have htime : compare (Bytes.bigEndian 8 a.timestamp.toNat)
      (Bytes.bigEndian 8 b.timestamp.toNat) = compare a.timestamp.toNat b.timestamp.toNat :=
    Bytes.compare_bigEndian (Bytes.toNat_lt_capacity_eight _) (Bytes.toNat_lt_capacity_eight _)
  have hindex : compare (Bytes.bigEndian 2 a.index.toNat)
      (Bytes.bigEndian 2 b.index.toNat) = compare a.index.toNat b.index.toNat :=
    Bytes.compare_bigEndian (Bytes.toNat_lt_capacity_two _) (Bytes.toNat_lt_capacity_two _)
  unfold Key.log Key.partition
  rw [Bytes.compare_append _ _ (by simp), Bytes.compare_append _ _ (by simp), Bytes.compare_cons,
    hpartition, htime, hindex, Std.ReflOrd.compare_self]
  show ((compareOfLessAndEq _ _).then (compareOfLessAndEq _ _)).then (compareOfLessAndEq _ _) =
    ((compareOfLessAndEq _ _).then (compareOfLessAndEq _ _)).then (compareOfLessAndEq _ _)
  simp only [compareOfLessAndEq, UInt8.lt_iff_toNat_lt, ← UInt8.toNat_inj, UInt64.lt_iff_toNat_lt,
    ← UInt64.toNat_inj, UInt16.lt_iff_toNat_lt, ← UInt16.toNat_inj]

theorem before_iff {a b : EventId} (h : a.partition = b.partition) : a.Before b ↔
    a.timestamp < b.timestamp ∨ a.timestamp = b.timestamp ∧ a.index < b.index := by
  have hcompare :
      compare a b = (compare a.timestamp b.timestamp).then (compare a.index b.index) := by
    show ((compare a.partition b.partition).then _).then _ = _
    rw [h, Std.ReflOrd.compare_self]
    rfl
  rw [Before, hcompare, Ordering.then_eq_lt, Std.compare_eq_lt, Std.compare_eq_lt,
    Std.LawfulEqOrd.compare_eq_iff_eq]

theorem compare_eq_gt_iff {a b : EventId} : compare a b = .gt ↔ b.Before a := by
  rw [Before, ← compare_log, ← compare_log, Std.OrientedOrd.eq_swap (a := Key.log a),
    Ordering.swap_eq_gt]

theorem Before.trans {a b c : EventId} (hab : a.Before b) (hbc : b.Before c) : a.Before c := by
  rw [Before, ← compare_log] at *
  exact Std.TransCmp.lt_trans hab hbc

theorem Before.asymm {a b : EventId} (h : a.Before b) : ¬ b.Before a := by
  rw [← compare_eq_gt_iff, h]
  decide

theorem not_before_first (id : EventId) : ¬ id.Before (first id.partition) := by
  have hpartition : id.partition = (first id.partition).partition := rfl
  rw [before_iff hpartition]
  rintro (h | ⟨-, h⟩)
  · exact absurd h (Nat.not_lt_zero _)
  · exact absurd h (Nat.not_lt_zero _)

theorem not_last_before (id : EventId) : ¬ (last id.partition).Before id := by
  have htime := id.timestamp.toNat_lt
  have hindex := id.index.toNat_lt
  have hpartition : (last id.partition).partition = id.partition := rfl
  rw [before_iff hpartition, UInt64.lt_iff_toNat_lt, UInt16.lt_iff_toNat_lt]
  rintro (h | ⟨-, h⟩)
  · change 18446744073709551615 < _ at h
    omega
  · change 65535 < _ at h
    omega

end EventId

theorem Key.partition_prefix_log {p : UInt8} {id : EventId} :
    partition p <+: log id ↔ id.partition = p := by
  rw [log, List.append_assoc]
  constructor
  · rintro ⟨rest, h⟩
    have hpartition := (List.append_inj h (by simp [partition])).1
    rw [partition, partition, List.cons.injEq, Bytes.bigEndian_inj
      (Bytes.toNat_byte_lt_capacity_two _) (Bytes.toNat_byte_lt_capacity_two _)] at hpartition
    exact (UInt8.toNat_inj.mp hpartition.2).symm
  · rintro rfl
    exact List.prefix_append _ _

/-! ## Pages -/

/-- What the log stores of an event, and under which key. -/
def LogEvent.entry (e : LogEvent) : Bytes × Bytes := (Key.log e.id, e.mark :: e.payload)

namespace Log

/-- The log of the partition consists of the events, in this order. -/
structure Lists (keys : KeySpace) (p : UInt8) (events : List LogEvent) : Prop where
  mem : ∀ {key stored}, Key.partition p <+: key →
    (keys.stored? key = some stored ↔ (key, stored) ∈ events.map LogEvent.entry)
  sorted : events.Pairwise fun a b => a.id.Before b.id
  partition : ∀ e ∈ events, e.id.partition = p

variable {keys : KeySpace} {p : UInt8} {events : List LogEvent}

/-- Folds events, as far as the page goes. -/
theorem visitAll_foldl {σ : Type} {f : σ → LogEvent → Outcome σ} {g : σ → LogEvent → σ}
    {last : EventId} {size folded : Nat} (hf : ∀ state, ∀ e ∈ events, f state e = .ok (g state e))
    (hfolded : folded ≤ size) (hlast : ∀ e ∈ events, ¬ last.Before e.id) (state : σ) :
    ∃ n, KeySpace.visitAll (foldEntry last size f) (events.map LogEvent.entry)
      ⟨state, folded, none⟩ = .ok ⟨(events.take (size - folded)).foldl g state, n,
        (events.drop (size - folded)).head?.map LogEvent.id⟩ := by
  induction events generalizing state folded with
  | nil => exact ⟨folded, by simp [KeySpace.visitAll]⟩
  | cons e events ih =>
    have hle : compare e.id last ≠ .gt := by
      rw [ne_eq, EventId.compare_eq_gt_iff]
      exact hlast e List.mem_cons_self
    have hread : Entry.ofStored (Key.log e.id) (e.mark :: e.payload) =
        .ok ⟨e.mark, e.payload⟩ := rfl
    rw [List.map_cons, LogEvent.entry, KeySpace.visitAll, hread]
    simp only [bind, Except.bind, foldEntry, EventId.decode_log, if_neg hle]
    by_cases hsize : size ≤ folded
    · have hzero : size - folded = 0 := by omega
      exact ⟨folded, by simp [hsize, hzero, pure, Except.pure]⟩
    · have hnext : folded + 1 ≤ size := by omega
      obtain ⟨n, hn⟩ := ih (fun state e he => hf state e (List.mem_cons_of_mem _ he)) hnext
        (fun e he => hlast e (List.mem_cons_of_mem _ he)) (g state e)
      have hsucc : size - folded = size - (folded + 1) + 1 := by omega
      refine ⟨n, ?_⟩
      rw [if_neg hsize, hf state e List.mem_cons_self]
      simp [pure, Except.pure, hn, hsucc]

/-- A place in the list: it lies behind the first `n` events. -/
structure Starts (events : List LogEvent) (n : Nat) (first : EventId) : Prop where
  before : ∀ e ∈ events.take n, e.id.Before first
  after : ∀ e ∈ events.drop n, ¬ e.id.Before first

theorem Lists.starts_first (h : Lists keys p events) : Starts events 0 (.first p) :=
  ⟨nofun, fun e he => h.partition e (List.mem_of_mem_drop he) ▸ EventId.not_before_first e.id⟩

theorem Lists.starts_at (h : Lists keys p events) {n : Nat} {e : LogEvent}
    (he : (events.drop n).head? = some e) : Starts events n e.id := by
  obtain ⟨rest, hrest⟩ := List.head?_eq_some_iff.mp he
  have hsorted := h.sorted
  rw [← List.take_append_drop n events, hrest, List.pairwise_append, List.pairwise_cons] at hsorted
  refine ⟨fun a ha => hsorted.2.2 a ha e List.mem_cons_self, fun a ha => ?_⟩
  rw [hrest] at ha
  rcases List.mem_cons.mp ha with rfl | ha
  · exact fun hself => hself.asymm hself
  · exact (hsorted.2.1.1 a ha).asymm

theorem Lists.scan_eq (h : Lists keys p events) {n : Nat} {first : EventId}
    (hpartition : first.partition = p) (hstart : Starts events n first) :
    keys.scan (Key.log first) (Key.partition p) = (events.drop n).map LogEvent.entry := by
  have hsplit := h.sorted
  rw [← List.take_append_drop n events, List.pairwise_append] at hsplit
  refine (keys.ordered_scan _ _).eq_of_mem_iff ?_ ?_
  · refine List.pairwise_map.mpr (hsplit.2.1.imp fun {a b} hab => ?_)
    rw [LogEvent.entry, LogEvent.entry, EventId.compare_log]
    exact hab
  · rintro ⟨key, stored⟩
    rw [KeySpace.mem_scan (Key.partition_prefix_log.mpr hpartition)]
    constructor
    · rintro ⟨hstored, hge, hprefix⟩
      obtain ⟨e, he, hentry⟩ := List.mem_map.mp ((h.mem hprefix).mp hstored)
      refine List.mem_map.mpr ⟨e, ?_, hentry⟩
      rw [← List.take_append_drop n events] at he
      rcases List.mem_append.mp he with he | he
      · cases hentry
        rw [EventId.compare_log, ne_eq, EventId.compare_eq_gt_iff] at hge
        exact absurd (hstart.before e he) hge
      · exact he
    · intro hmem
      obtain ⟨e, he, hentry⟩ := List.mem_map.mp hmem
      have he' := List.mem_of_mem_drop he
      cases hentry
      have hprefix := Key.partition_prefix_log.mpr (h.partition e he')
      refine ⟨(h.mem hprefix).mpr (List.mem_map.mpr ⟨e, he', rfl⟩), ?_, hprefix⟩
      rw [EventId.compare_log, ne_eq, EventId.compare_eq_gt_iff]
      exact hstart.after e he

/-- A fold of a page that starts behind `n` events takes the next `size` of them, and names the one
that follows. -/
theorem Lists.fold_eq {σ : Type} (h : Lists keys p events) {n size : Nat} {first : EventId}
    {f : σ → LogEvent → Outcome σ} {g : σ → LogEvent → σ} (hsize : 0 < size)
    (hpartition : first.partition = p) (hstart : Starts events n first)
    (hf : ∀ state, ∀ e ∈ events, f state e = .ok (g state e)) (init : σ) :
    fold keys first (.last p) size init f = .ok ⟨((events.drop n).take size).foldl g init,
      ((events.drop n).drop size).head?.map LogEvent.id⟩ := by
  have hlast : ∀ e ∈ events.drop n, ¬ (EventId.last p).Before e.id := fun e he =>
    h.partition e (List.mem_of_mem_drop he) ▸ EventId.not_last_before e.id
  obtain ⟨folded, hvisit⟩ := visitAll_foldl
    (fun state e he => hf state e (List.mem_of_mem_drop he)) (Nat.zero_le size) hlast init
  rw [fold, if_neg hsize.ne', KeySpace.fold_eq_visitAll, hpartition, h.scan_eq hpartition hstart,
    hvisit]
  simp [bind, Except.bind, pure, Except.pure]

theorem foldl_filterMap {α β : Type} (pick : α → Option β) (xs : List α) (found : List β) :
    xs.foldl (fun found x => (pick x).toList ++ found) found =
      (xs.filterMap pick).reverse ++ found := by
  induction xs generalizing found with
  | nil => rfl
  | cons x xs ih => cases hx : pick x <;> simp [ih, hx]

/-- A page that starts behind `n` events has what is picked from the next `size` of them, and names
the one that follows. -/
theorem Lists.collect_eq {α : Type} (h : Lists keys p events) {n size : Nat} {first : EventId}
    {pick : LogEvent → Outcome (Option α)} {picked : LogEvent → Option α} (hsize : 0 < size)
    (hpartition : first.partition = p) (hstart : Starts events n first)
    (hpick : ∀ e ∈ events, pick e = .ok (picked e)) :
    collect keys first (.last p) size pick =
      .ok ⟨((events.drop n).take size).filterMap picked,
        ((events.drop n).drop size).head?.map LogEvent.id⟩ := by
  rw [collect, h.fold_eq (g := fun found e => (picked e).toList ++ found) hsize hpartition hstart]
  · rw [foldl_filterMap]
    simp [bind, Except.bind, pure, Except.pure]
  · intro found e he
    rw [hpick e he]
    cases picked e <;> rfl

/-- A page that starts behind `n` events has the next `size` of them, and names the one that
follows. -/
theorem Lists.range_eq (h : Lists keys p events) {n size : Nat} {first : EventId}
    (hsize : 0 < size) (hpartition : first.partition = p) (hstart : Starts events n first) :
    range keys first (.last p) size =
      .ok ⟨(events.drop n).take size, ((events.drop n).drop size).head?.map LogEvent.id⟩ := by
  rw [range, h.collect_eq hsize hpartition hstart fun e _ => rfl, List.filterMap_some]

end Log
end Chronicle
