import Mathlib
import Chronicle.Proofs.EffectLog
import Chronicle.Proofs.Shipping

/-!
# Shipping aliases

A replica can take over the events of items page by page whichever partition comes first, and has of
each item what the primary has. The pointer of an alias is written by whoever has used the alias, in
the order in which the partitions arrive: aliases are sure to resolve on the replica exactly if no
alias that is listed in the end has been used by items of another partition.
-/
namespace Chronicle

variable {P : ItemId → Prop} {clock : Clock} {trace : List Step} {primary : Session} {p : UInt8}
  {counts pages : UInt8 → Nat} {order : List Effect} {size : Nat} {s : Shipment}

/-! ## Merged logs -/

namespace Run

/-- The effects of so many events of each partition, each partition in its own order. -/
structure Merges (trace : List Step) (counts : UInt8 → Nat) (order : List Effect) : Prop where
  ofTag : ∀ p, Effect.ofTag p.toUInt16 order =
    ((appended p trace).take (counts p)).filterMap LogEvent.effect?
  tags : ∀ f ∈ order, ∃ p : UInt8, f.item.tag = p.toUInt16

namespace Merges

theorem empty (trace : List Step) : Merges trace (fun _ => 0) [] := ⟨fun _ => rfl, nofun⟩

theorem ofTag_eq_nil (h : Merges trace counts order) {tag : UInt16}
    (htag : ¬ ∃ p : UInt8, tag = p.toUInt16) : Effect.ofTag tag order = [] :=
  Effect.ofTag_eq_nil fun f hf heq => htag (heq ▸ h.tags f hf)

/-- Each event is admitted after those before it, whichever partition comes first. -/
theorem proper (h : Merges trace counts order) (hrecorded : Recorded P clock trace primary) :
    Effect.Proper order := by
  rw [Effect.proper_iff_ofTag]
  intro tag
  by_cases htag : ∃ p : UInt8, tag = p.toUInt16
  · obtain ⟨p, rfl⟩ := htag
    have hproper := Effect.proper_iff_ofTag.mp hrecorded.proper p.toUInt16
    rw [← hrecorded.effects_appended, ← List.take_append_drop (counts p) (appended p trace),
      List.filterMap_append] at hproper
    rw [h.ofTag]
    exact hproper.of_append
  · rw [h.ofTag_eq_nil htag]
    exact Effect.proper_nil

/-- The next events of a partition come after all that is there. -/
theorem next (h : Merges trace counts order) (hrecorded : Recorded P clock trace primary) (p : UInt8)
    (n : Nat) : Merges trace (Function.update counts p (counts p + n))
      (order ++ (((appended p trace).drop (counts p)).take n).filterMap LogEvent.effect?) ∧
    ∀ f ∈ (((appended p trace).drop (counts p)).take n).filterMap LogEvent.effect?,
      f.item.tag = p.toUInt16 := by
  have htags : ∀ f ∈ (((appended p trace).drop (counts p)).take n).filterMap LogEvent.effect?,
      f.item.tag = p.toUInt16 := by
    intro f hf
    obtain ⟨e, he, heffect⟩ := List.mem_filterMap.mp hf
    obtain ⟨g, hg, -, htag⟩ := hrecorded.exists_effect
      (List.mem_of_mem_drop (List.mem_of_mem_take he)) (LogEvent.effect?_eq_some heffect).1
    rw [heffect, Option.some.injEq] at hg
    rw [hg, htag]
  refine ⟨⟨fun q => ?_, fun f hf => ?_⟩, htags⟩
  · rw [Effect.ofTag_append, h.ofTag]
    by_cases hq : q = p
    · subst hq
      rw [Effect.ofTag_eq_self htags, Function.update_self, List.take_add, List.filterMap_append]
    · rw [Function.update_of_ne hq, Effect.ofTag_eq_nil, List.append_nil]
      intro f hf heq
      rw [htags f hf, UInt8.toUInt16_inj] at heq
      exact hq heq.symm
  · rcases List.mem_append.mp hf with hold | hnew
    · exact h.tags f hold
    · exact ⟨p, htags f hnew⟩

/-- When there are no more events, a merge of the log has the partitions of the log. -/
theorem ofTag_of_all (h : Merges trace counts order) (hrecorded : Recorded P clock trace primary)
    (hall : ∀ p, (appended p trace).length ≤ counts p) (tag : UInt16) :
    Effect.ofTag tag order = Effect.ofTag tag (effects trace) := by
  by_cases htag : ∃ p : UInt8, tag = p.toUInt16
  · obtain ⟨p, rfl⟩ := htag
    rw [h.ofTag, List.take_of_length_le (hall p), hrecorded.effects_appended]
  · rw [h.ofTag_eq_nil htag, Effect.ofTag_eq_nil]
    exact fun f hf heq => htag (heq ▸ (hrecorded.exists_partition hf).2)

end Merges

end Run

/-! ## Merged shipments -/

namespace Shipment

/-- So many pages of each partition have been shipped, and have made of the replica what their
events make in this order. -/
structure Merged (P : ItemId → Prop) (trace : List Step) (size : Nat) (pages : UInt8 → Nat)
    (order : List Effect) (s : Shipment) : Prop where
  cursor : ∀ p, Cursor trace p (size * pages p) s
  merges : Run.Merges trace (fun p => size * pages p) order
  replayed : Directory.Replayed P s.replica.keys order

variable (hrecorded : Run.Recorded P clock trace primary) (hclock : Monotone clock.readings)

include hrecorded hclock

theorem merged_start (size : Nat) (replicaClock : Clock) :
    Merged P trace size (fun _ => 0) [] (start replicaClock) :=
  ⟨fun p => .start (hrecorded.logging.lists hclock p) replicaClock, .empty trace,
    ⟨Directory.shown_empty, .empty⟩⟩

namespace Merged

variable (hP : Separate P) (hsize : 0 < size)

include hP hsize

theorem page (h : Merged P trace size pages order s) (p : UInt8) :
    ∃ t gs, Shipment.page primary.keys size s p = .ok t ∧
      Merged P trace size (Function.update pages p (pages p + 1)) (order ++ gs) t ∧
      ∀ f ∈ gs, f.item.tag = p.toUInt16 := by
  obtain ⟨hmerges, htags⟩ := h.merges.next hrecorded p size
  have hcounts : Function.update (fun q => size * pages q) p (size * pages p + size) =
      fun q => size * Function.update pages p (pages p + 1) q := by
    funext q
    by_cases hq : q = p
    · subst hq
      rw [Function.update_self, Function.update_self, Nat.mul_succ]
    · rw [Function.update_of_ne hq, Function.update_of_ne hq]
  have heffect : ∀ e ∈ ((Run.appended p trace).drop (size * pages p)).take size,
      Kind.isItem e.mark = true → ∃ f, e.effect? = some f ∧ P f.item := by
    intro e he hkind
    obtain ⟨f, hf, hitem, -⟩ := hrecorded.exists_effect
      (List.mem_of_mem_drop (List.mem_of_mem_take he)) hkind
    exact ⟨f, hf, hitem⟩
  obtain ⟨w, hupdate, hreplayed⟩ := h.replayed.apply hP heffect (hmerges.proper hrecorded)
  obtain ⟨t, hpage, rfl, hcursor⟩ := Cursor.page h.cursor
    (fun q => hrecorded.logging.lists hclock q) hsize hupdate
  exact ⟨t, _, hpage, ⟨hcursor, hcounts ▸ hmerges, hreplayed⟩, htags⟩

/-- Pages can be shipped in any order, and their events come last. -/
theorem ship (h : Merged P trace size pages order s) (schedule : List UInt8) :
    ∃ t gs, Shipment.ship primary.keys size schedule s = .ok t ∧
      Merged P trace size (fun p => pages p + schedule.count p) (order ++ gs) t ∧
      ∀ f ∈ gs, ∃ p ∈ schedule, f.item.tag = p.toUInt16 := by
  have hpage : ∀ p ∈ schedule, ∀ pages s, (∃ gs, Merged P trace size pages (order ++ gs) s ∧
      ∀ f ∈ gs, ∃ p ∈ schedule, f.item.tag = p.toUInt16) →
      ∃ t, Shipment.page primary.keys size s p = .ok t ∧
        ∃ gs, Merged P trace size (Function.update pages p (pages p + 1)) (order ++ gs) t ∧
          ∀ f ∈ gs, ∃ p ∈ schedule, f.item.tag = p.toUInt16 := by
    rintro p hp pages s ⟨fs, hs, hfs⟩
    obtain ⟨t, gs, hpage, ht, hgs⟩ := hs.page hrecorded hclock hP hsize p
    refine ⟨t, hpage, fs ++ gs, List.append_assoc order fs gs ▸ ht, fun f hf => ?_⟩
    rcases List.mem_append.mp hf with hold | hnew
    · exact hfs f hold
    · exact ⟨p, hp, hgs f hnew⟩
  obtain ⟨t, hship, gs, ht, hgs⟩ := ship_of_page _ hpage
    ⟨[], (List.append_nil order).symm ▸ h, nofun⟩
  exact ⟨t, gs, hship, ht, hgs⟩

end Merged

end Shipment

/-! ## Aliases of merged shipments -/

namespace Run

/-- In the order of the run the events make a directory in which aliases resolve. -/
theorem Recorded.pointers_of_mem_aliases {a x : ItemId} (h : Recorded P clock trace primary)
    (hconsistent : (directory trace).Consistent)
    (hx : x ∈ (Directory.replay (effects trace)).aliases a) :
    (Directory.replay (effects trace)).pointers x = some a := by
  rw [h.behind.aliases] at hx
  rw [h.behind.pointers]
  exact hconsistent.listed a x hx

/-- An item that lists an alias belongs to a partition. -/
theorem Recorded.exists_tag {a x : ItemId} (h : Recorded P clock trace primary)
    (hx : x ∈ (directory trace).aliases a) : ∃ p : UInt8, a.tag = p.toUInt16 := by
  rw [← h.behind.aliases] at hx
  exact (h.exists_partition (Effect.link_mem_of_mem_aliases hx)).2

/-- Every item to which the run has added the alias has the type tag. -/
def UsedBy (trace : List Step) (x : ItemId) (tag : UInt16) : Prop :=
  ∀ step ∈ trace, ∀ b, step.op = .addAlias b x → b.tag = tag

theorem Recorded.confined_iff {x : ItemId} {tag : UInt16} (h : Recorded P clock trace primary) :
    Effect.Confined x tag (effects trace) ↔ UsedBy trace x tag := by
  constructor
  · intro hconfined step hstep b hop
    exact hconfined b ((h.links b x).mpr ⟨step, hstep, hop⟩)
  · intro hused b hlink
    obtain ⟨step, hstep, hop⟩ := (h.links b x).mp hlink
    exact hused step hstep b hop

/-- The partitions of the events of a run, in turn. -/
def partitions (trace : List Step) : List UInt8 :=
  (trace.filterMap Step.added).map fun e => e.id.partition

theorem count_partitions (p : UInt8) (trace : List Step) :
    (partitions trace).count p = (appended p trace).length := by
  rw [appended_eq_filter, partitions, List.count_eq_countP, List.countP_map, List.countP_eq_length_filter]
  exact congrArg List.length (List.filter_congr fun e _ => beq_eq_decide _ _)

end Run

namespace Shipment

variable {t : Shipment}

/-- Everything has been shipped. -/
theorem Cursor.shipped_eq_iff {n : Nat} (h : Cursor trace p n s) :
    s.shipped p = Run.appended p trace ↔ (Run.appended p trace).length ≤ n := by
  rw [h.shipped, List.take_eq_self_iff]

namespace Merged

variable (hrecorded : Run.Recorded P clock trace primary)
  (hconsistent : (directory trace).Consistent) (h : Merged P trace size pages order s)
  (hall : ∀ p, s.shipped p = Run.appended p trace)

include hrecorded h hall

theorem ofTag_of_all (tag : UInt16) :
    Effect.ofTag tag order = Effect.ofTag tag (Run.effects trace) :=
  h.merges.ofTag_of_all hrecorded (fun p => (h.cursor p).shipped_eq_iff.mp (hall p)) tag

/-- The replica has the aliases that the primary has. -/
theorem aliases_of_all (a : ItemId) :
    (Directory.replay order).aliases a = (directory trace).aliases a := by
  rw [← hrecorded.behind.aliases, ← Effect.aliases_replay_ofTag order rfl,
    h.ofTag_of_all hrecorded hall, Effect.aliases_replay_ofTag _ rfl]

include hconsistent

theorem aliasesResolve
    (hused : ∀ a x, x ∈ (directory trace).aliases a → Run.UsedBy trace x a.tag) :
    Item.AliasesResolve s.replica.keys := by
  rw [h.replayed.shown.aliasesResolve_iff h.replayed.counted]
  refine Effect.pointers_iff_of_confined hrecorded.proper (h.ofTag_of_all hrecorded hall)
    (fun x a hx => hrecorded.pointers_of_mem_aliases hconsistent hx) fun x a hx => ?_
  rw [hrecorded.behind.aliases] at hx
  exact hrecorded.confined_iff.mpr (hused a x hx)

end Merged

/-- An alias of an item is lost when the partition of the item has been shipped before another one
that has used the alias. -/
theorem not_aliasesResolve (hrecorded : Run.Recorded P clock trace primary) (hP : Separate P)
    (hclock : Monotone clock.readings) (hsize : 0 < size) (replicaClock : Clock)
    {first others : List UInt8} (hfirst : ∀ q ∈ first, q = p) (hothers : ∀ q ∈ others, q ≠ p)
    {a b x : ItemId} (htag : a.tag = p.toUInt16) (hx : x ∈ (directory trace).aliases a) {step : Step}
    (hstep : step ∈ trace) (hop : step.op = .addAlias b x) (hne : b.tag ≠ a.tag)
    (hship : ship primary.keys size (first ++ others) (start replicaClock) = .ok t)
    (hall : ∀ p, t.shipped p = Run.appended p trace) : ¬ Item.AliasesResolve t.replica.keys := by
  obtain ⟨u, fs, hu_ship, hu, hfs⟩ :=
    (merged_start hrecorded hclock size replicaClock).ship hrecorded hclock hP hsize first
  obtain ⟨v, gs, hv_ship, hv, hgs⟩ := hu.ship hrecorded hclock hP hsize others
  rw [ship, List.foldlM_append] at hship
  obtain rfl : v = t :=
    Except.ok.inj ((((congrArg (· >>= _) hu_ship).trans hv_ship).symm).trans hship)
  intro hresolve
  rw [hv.replayed.shown.aliasesResolve_iff hv.replayed.counted] at hresolve
  have hpoints := (hresolve x a).mpr (by rwa [hv.aliases_of_all hrecorded hall])
  -- the partition of the item has come first, so the other use of the alias has come last
  have hlink : .link b x ∈ gs := by
    have hmem : .link b x ∈ [] ++ fs ++ gs :=
      (Effect.mem_iff_of_ofTag (hv.ofTag_of_all hrecorded hall)).mpr
        ((hrecorded.links b x).mpr ⟨step, hstep, hop⟩)
    rcases List.mem_append.mp hmem with hearly | hlate
    · obtain ⟨q, hq, hqtag⟩ := hfs _ hearly
      rw [hfirst q hq, ← htag] at hqtag
      exact absurd hqtag hne
    · exact hlate
  have hforeign : ∀ f ∈ gs, f.item.tag ≠ a.tag := by
    intro f hf heq
    obtain ⟨q, hq, hqtag⟩ := hgs f hf
    rw [heq, htag, UInt8.toUInt16_inj] at hqtag
    exact hothers q hq hqtag.symm
  rw [Directory.replay, List.foldl_append] at hpoints
  exact Effect.pointers_ne_of_link hforeign hlink _ hpoints

/-- A partition can be shipped to its end before the others are. -/
theorem Merged.shipped_of_partitions (h : Merged P trace size (fun q => ((Run.partitions trace).filter
    (· = p) ++ (Run.partitions trace).filter (· ≠ p)).count q) order s) (hsize : 0 < size)
    (q : UInt8) : s.shipped q = Run.appended q trace := by
  rw [(h.cursor q).shipped_eq_iff, ← Run.count_partitions]
  refine le_trans ?_ (Nat.le_mul_of_pos_left _ hsize)
  rw [List.count_append]
  by_cases hq : q = p
  · simp [hq, List.count_filter]
  · simp [hq, List.count_filter]

end Shipment

/-! ## Aliases of a run on a replica -/

namespace Run

theorem recorded {txns : List (List Op)} {clock : Clock}
    (hops : ∀ ops ∈ txns, ∀ op ∈ ops, op.OnItem)
    (hclear : ∀ item, Items (Run.trace txns clock) item → Clear (Run.trace txns clock) item) :
    Recorded (Items (Run.trace txns clock)) clock (Run.trace txns clock) (run txns (.start clock)).2 :=
  (reached txns clock).recorded (separate_items hclear) (fun _ hitem => hitem)
    (forall_mem_trace (fun _ hmutate => hmutate) hops)

/-- The log of a run of operations on items can be shipped in any order of its partitions. -/
theorem exists_ship {txns : List (List Op)} {clock : Clock}
    (hops : ∀ ops ∈ txns, ∀ op ∈ ops, op.OnItem)
    (hclear : ∀ item, Items (Run.trace txns clock) item → Clear (Run.trace txns clock) item)
    (hclock : Monotone clock.readings) {size : Nat} (hsize : 1 ≤ size) (replicaClock : Clock)
    (schedule : List UInt8) : ∃ t order,
      Shipment.ship (result txns clock) size schedule (.start replicaClock) = .ok t ∧
        Shipment.Merged (Items (Run.trace txns clock)) (Run.trace txns clock) size
          (fun p => schedule.count p) order t := by
  have hrecorded := recorded hops hclear
  obtain ⟨t, gs, hship, ht, -⟩ := (Shipment.merged_start hrecorded hclock size replicaClock).ship
    hrecorded hclock (separate_items hclear) hsize schedule
  simp only [Nat.zero_add] at ht
  exact ⟨t, _, hship, ht⟩

/-- An alias that another partition has used is lost when the partition of the item that lists it
comes first. -/
theorem not_aliasesResolve_of_first {txns : List (List Op)} {clock : Clock}
    (hops : ∀ ops ∈ txns, ∀ op ∈ ops, op.OnItem)
    (hclear : ∀ item, Items (Run.trace txns clock) item → Clear (Run.trace txns clock) item)
    (hclock : Monotone clock.readings) {size : Nat} (hsize : 1 ≤ size) {replicaClock : Clock}
    (first others : List UInt8) (hfirst : ∀ q ∈ first, q = p) (hothers : ∀ q ∈ others, q ≠ p)
    {a b x : ItemId} {xs : List ItemId} (htag : a.tag = p.toUInt16)
    (haliases : Item.aliases (result txns clock) a = .ok xs) (hx : x ∈ xs) {step : Step}
    (hstep : step ∈ Run.trace txns clock) (hop : step.op = .addAlias b x) (hne : b.tag ≠ a.tag)
    {t : Shipment} (hship : Shipment.ship (result txns clock) size (first ++ others)
      (.start replicaClock) = .ok t)
    (hall : ∀ p, t.shipped p = appended p (Run.trace txns clock)) :
    ¬ Item.AliasesResolve t.replica.keys := by
  have hP := separate_items hclear
  obtain ⟨⟨hshown, -⟩, hcounted⟩ := (reached txns clock).kept hP fun _ hitem => hitem
  exact Shipment.not_aliasesResolve (recorded hops hclear) hP hclock hsize replicaClock hfirst hothers
    htag ((hshown.mem_aliases_iff hcounted).mp ⟨xs, haliases, hx⟩) hstep hop hne hship hall

/-- The log of a run of operations on items can be shipped in any order of its partitions. In every
order that ships all of it aliases resolve on the replica to exactly the items that list them, if
and only if each alias that an item of the primary lists has only ever been added to items with the
type tag of that item. -/
theorem replica_aliases_resolve_iff (txns : List (List Op)) (clock : Clock)
    (hops : ∀ ops ∈ txns, ∀ op ∈ ops, op.OnItem)
    (hclear : ∀ item, Items (Run.trace txns clock) item → Clear (Run.trace txns clock) item)
    (hclock : Monotone clock.readings) {size : Nat} (hsize : 1 ≤ size) (replicaClock : Clock) :
    (∀ schedule, ∃ t,
      Shipment.ship (result txns clock) size schedule (.start replicaClock) = .ok t ∧
        ∀ p, t.shipped p = (appended p (Run.trace txns clock)).take (size * schedule.count p)) ∧
    ((∀ schedule t,
        Shipment.ship (result txns clock) size schedule (.start replicaClock) = .ok t →
          (∀ p, t.shipped p = appended p (Run.trace txns clock)) → Item.AliasesResolve t.replica.keys) ↔
      ∀ item xs x, Item.aliases (result txns clock) item = .ok xs → x ∈ xs →
        UsedBy (Run.trace txns clock) x item.tag) := by
  have hP := separate_items hclear
  have hrecorded := recorded hops hclear
  obtain ⟨⟨hshown, hconsistent⟩, hcounted⟩ := (reached txns clock).kept hP fun _ hitem => hitem
  have hship := exists_ship hops hclear hclock hsize replicaClock
  refine ⟨fun schedule => ?_, fun hresolve item xs x hxs hx step hstep b hop => ?_,
    fun hused schedule t hschedule hall => ?_⟩
  · obtain ⟨t, order, hschedule, ht⟩ := hship schedule
    exact ⟨t, hschedule, fun p => (ht.cursor p).shipped⟩
  · by_contra hne
    obtain ⟨p, htag⟩ := hrecorded.exists_tag ((hshown.mem_aliases_iff hcounted).mp ⟨xs, hxs, hx⟩)
    obtain ⟨t, order, hschedule, ht⟩ := hship
      ((partitions (Run.trace txns clock)).filter (· = p) ++
        (partitions (Run.trace txns clock)).filter (· ≠ p))
    have hall := ht.shipped_of_partitions hsize
    refine not_aliasesResolve_of_first hops hclear hclock hsize _ _ (fun q hq => ?_)
      (fun q hq => ?_) htag hxs hx hstep hop hne hschedule hall (hresolve _ t hschedule hall)
    · exact of_decide_eq_true (List.mem_filter.mp hq).2
    · exact of_decide_eq_true (List.mem_filter.mp hq).2
  · obtain ⟨u, order, hschedule', hu⟩ := hship schedule
    obtain rfl : u = t := Except.ok.inj (hschedule'.symm.trans hschedule)
    refine hu.aliasesResolve hrecorded hconsistent hall fun item x hx => ?_
    obtain ⟨xs, hxs, hmem⟩ := (hshown.mem_aliases_iff hcounted).mpr hx
    exact hused item xs x hxs hmem

theorem onItem_aliasMoved (a b x : ItemId) : ∀ ops ∈ aliasMoved a b x, ∀ op ∈ ops, op.OnItem := by
  intro ops hops op hop
  simp only [aliasMoved, List.mem_cons, List.not_mem_nil, or_false] at hops
  rcases hops with rfl | rfl | rfl
  all_goals
    simp only [List.mem_cons, List.not_mem_nil, or_false] at hop
    rcases hop with rfl | rfl | rfl
  all_goals trivial

/-- An alias moves between two items of one partition, and a replica follows. -/
theorem replica_aliases_resolve_aliasMoved : ∃ t,
    Shipment.ship (result (aliasMoved ⟨1, [120]⟩ ⟨1, [121]⟩ ⟨1, [122]⟩) (.steady 5 1)) 2 [1, 1, 1]
        (.start (.steady 0 1)) = .ok t ∧
      (∀ p, t.shipped p =
        appended p (Run.trace (aliasMoved ⟨1, [120]⟩ ⟨1, [121]⟩ ⟨1, [122]⟩) (.steady 5 1))) ∧
      Item.AliasesResolve t.replica.keys := by
  have hpartitions : partitions
      (Run.trace (aliasMoved ⟨1, [120]⟩ ⟨1, [121]⟩ ⟨1, [122]⟩) (.steady 5 1)) =
        [1, 1, 1, 1, 1, 1] := by decide +kernel
  have hclear := clear_aliasMoved (a := ⟨1, [120]⟩) (b := ⟨1, [121]⟩) (x := ⟨1, [122]⟩) rfl
    (.steady 5 1)
  obtain ⟨hship, hresolve⟩ := replica_aliases_resolve_iff
    (aliasMoved ⟨1, [120]⟩ ⟨1, [121]⟩ ⟨1, [122]⟩) (.steady 5 1) (onItem_aliasMoved _ _ _) hclear
    (monotone_steady 5 1) (by decide : 1 ≤ 2) (.steady 0 1)
  obtain ⟨t, ht, hshipped⟩ := hship [1, 1, 1]
  have hall : ∀ p, t.shipped p =
      appended p (Run.trace (aliasMoved ⟨1, [120]⟩ ⟨1, [121]⟩ ⟨1, [122]⟩) (.steady 5 1)) := by
    intro p
    rw [hshipped, List.take_eq_self_iff, ← count_partitions, hpartitions]
    by_cases hp : p = 1
    · rw [hp]
      decide
    · simp [Ne.symm hp]
  refine ⟨t, ht, hall, hresolve.mpr (fun item xs x hxs _ step hstep b hop => ?_) _ t ht hall⟩
  have htag : ∀ item, Items
      (Run.trace (aliasMoved ⟨1, [120]⟩ ⟨1, [121]⟩ ⟨1, [122]⟩) (.steady 5 1)) item → item.tag = 1 := by
    intro item hitem
    rcases items_aliasMoved hitem with rfl | rfl
    · rfl
    · rfl
  obtain ⟨⟨n, hversion⟩, -⟩ := Item.aliases_eq_ok.mp hxs
  have hcounted := ((reached _ (.steady 5 1)).kept (separate_items hclear) fun _ hitem => hitem).2
  rw [htag item (hcounted item n hversion), htag b ⟨step, hstep, by rw [hop]; rfl⟩]

/-- An alias goes from an item to one of another partition, which is shipped first. In the end the
first partition brings its own removal of the alias, which deletes the pointer of the other item. -/
theorem not_replica_aliases_resolve : ∃ t,
    Shipment.ship (result (aliasMoved ⟨1, [120]⟩ ⟨2, [121]⟩ ⟨1, [122]⟩) (.steady 5 1)) 4 [2, 1]
        (.start (.steady 0 1)) = .ok t ∧
      (∀ p, t.shipped p =
        appended p (Run.trace (aliasMoved ⟨1, [120]⟩ ⟨2, [121]⟩ ⟨1, [122]⟩) (.steady 5 1))) ∧
      ¬ Item.AliasesResolve t.replica.keys := by
  have hpartitions : partitions
      (Run.trace (aliasMoved ⟨1, [120]⟩ ⟨2, [121]⟩ ⟨1, [122]⟩) (.steady 5 1)) =
        [1, 2, 1, 1, 2, 1] := by decide +kernel
  have hlink : .link ⟨1, [120]⟩ ⟨1, [122]⟩ ∈ effects
      (Run.trace (aliasMoved ⟨1, [120]⟩ ⟨2, [121]⟩ ⟨1, [122]⟩) (.steady 5 1)) := by decide +kernel
  have haliases : Item.aliases (result (aliasMoved ⟨1, [120]⟩ ⟨2, [121]⟩ ⟨1, [122]⟩) (.steady 5 1))
      ⟨2, [121]⟩ = .ok [⟨1, [122]⟩] := Outcome.eq_ok_of_toOption (by decide +kernel)
  have hclear := clear_aliasMoved (a := ⟨1, [120]⟩) (b := ⟨2, [121]⟩) (x := ⟨1, [122]⟩) rfl
    (.steady 5 1)
  have hops := onItem_aliasMoved ⟨1, [120]⟩ ⟨2, [121]⟩ ⟨1, [122]⟩
  obtain ⟨t, order, hship, ht⟩ := exists_ship hops hclear (monotone_steady 5 1) (by decide : 1 ≤ 4)
    (.steady 0 1) [2, 1]
  have hall : ∀ p, t.shipped p =
      appended p (Run.trace (aliasMoved ⟨1, [120]⟩ ⟨2, [121]⟩ ⟨1, [122]⟩) (.steady 5 1)) := by
    intro p
    rw [(ht.cursor p).shipped_eq_iff, ← count_partitions, hpartitions]
    by_cases hp : p = 1 ∨ p = 2
    · rcases hp with rfl | rfl
      · decide
      · decide
    · rw [not_or] at hp
      simp [Ne.symm hp.1, Ne.symm hp.2]
  obtain ⟨step, hstep, hop⟩ := ((recorded hops hclear).links _ _).mp hlink
  refine ⟨t, hship, hall, ?_⟩
  exact not_aliasesResolve_of_first (p := 2) hops hclear (monotone_steady 5 1) (by decide : 1 ≤ 4)
    [2] [1] (by simp) (by simp) rfl haliases (List.mem_singleton_self _) hstep hop (by decide) hship
    hall

end Run
end Chronicle
