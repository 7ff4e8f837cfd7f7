import Mathlib
import Chronicle.Proofs.Ledgers
import Chronicle.Proofs.LogOrigins

/-!
# Pages delivered twice

A replica is fed with pages of the log of a primary, partition by partition in their order. Then each
event is delivered once, and no two slots of an item point at the same entry of the log. If the last
page of a partition is delivered once more, then either the takeover fails, or it comes to the same
index for every item that the page creates or deletes, while any other item gets the events of the
page a second time. The index of an item does not include the pointers of its aliases, which other
partitions write as well.
-/
namespace Chronicle

/-! ## Entries written twice -/

theorem KeySpace.stored?_withLog_of_mem {events : List LogEvent} (keys : KeySpace)
    (hnodup : (events.map LogEvent.id).Nodup) {e : LogEvent} (he : e ∈ events) :
    (keys.withLog events).stored? (Key.log e.id) = some (e.mark :: e.payload) := by
  induction events generalizing keys with
  | nil => simp at he
  | cons other events ih =>
    obtain ⟨hother, hnodup⟩ := List.nodup_cons.mp hnodup
    rcases List.mem_cons.mp he with rfl | he
    · have hrest : ∀ b ∈ events, Key.log b.id ≠ Key.log e.id := fun b hb heq =>
        hother (List.mem_map.mpr ⟨b, hb, Key.log_injective heq⟩)
      rw [withLog, List.foldl_cons, ← withLog, stored?_withLog_of_ne _ hrest, stored?_insert_self]
    · exact ih _ hnodup he

/-- Entries that the log has already. -/
theorem Log.same_withLog {keys : KeySpace} {events : List LogEvent}
    (hnodup : (events.map LogEvent.id).Nodup) (h : ∀ e ∈ events, Has keys e) :
    Same keys (keys.withLog events) := by
  intro id
  by_cases hid : ∃ e ∈ events, e.id = id
  · obtain ⟨e, he, rfl⟩ := hid
    exact (keys.stored?_withLog_of_mem hnodup he).trans (h e he).symm
  · exact keys.stored?_withLog_of_ne fun e he heq => hid ⟨e, he, Key.log_injective heq⟩

/-- Of the log a takeover writes its own entries alone. -/
theorem Replication.log_of_apply {events : List LogEvent} {s t : Session} {n : Nat}
    (h : apply events s = .ok n t) : Log.Same (s.keys.withLog events) t.keys := by
  obtain ⟨-, hforM⟩ := apply_eq_ok.mp h
  have hwrites := (Txn.keeps_forM fun e he => Item.writes_replicate Key.offLog_sub
    Key.offLog_pointer (s.keys.stored?_withLog_ne_none
      (.inr ⟨e, List.mem_of_mem_filter he, rfl⟩))).of_ok .refl hforM
  exact hwrites.within.same_log Key.not_offLog_log

/-! ## Slots of a ledger -/

namespace Item

/-- No two slots of the item point at the same entry of the log. -/
def PointsOnce (keys : KeySpace) (item : ItemId) : Prop :=
  ∀ (i j : UInt64) (a b : UInt8) (id : EventId),
    keys.stored? (Key.slot item i) = some (a :: Key.log id) →
    keys.stored? (Key.slot item j) = some (b :: Key.log id) → i = j

variable {keys : KeySpace} {item : ItemId} {found : Option Ledger}

theorem Image.pointsOnce (h : Image keys item found)
    (hnodup : ∀ l ∈ found, (l.slots.map Prod.snd).Nodup) : PointsOnce keys item := by
  intro i j a b id hi hj
  cases found with
  | none =>
    have hnone := h.stored (.slot i)
    rw [show keys.stored? (Key.sub item (.slot i)) = _ from hi] at hnone
    cases hnone
  | some l =>
    -- what stands in a slot is in the ledger
    have hget : ∀ {n : UInt64} {mark : UInt8},
        keys.stored? (Key.slot item n) = some (mark :: Key.log id) →
          (l.slots.map Prod.snd)[n.toNat]? = some id := by
      intro n mark hn
      have hstored : l.stored (.slot n) = some (mark :: Key.log id) := (h.stored (.slot n)).symm.trans hn
      obtain ⟨slot, hslot, heq⟩ := Option.map_eq_some_iff.mp hstored
      rw [List.getElem?_map, hslot, Option.map_some, Key.log_injective (List.cons.inj heq).2]
    obtain ⟨hlt, -⟩ := List.getElem?_eq_some_iff.mp (hget hi)
    exact UInt64.toNat_inj.mp
      ((List.getElem?_inj hlt (hnodup l rfl)).mp ((hget hi).trans (hget hj).symm))

end Item

/-! ## The index after a page -/

namespace Item

/-- The index had the slots at its end, and has got them a second time. The aliases are the same,
perhaps in another order. -/
def Doubled (slots : List (UInt8 × EventId)) (item : ItemId) (a b : KeySpace) : Prop :=
  ∃ old xs ys, Image a item (some ⟨old ++ slots, xs⟩) ∧
    Image b item (some ⟨old ++ slots ++ slots, ys⟩) ∧ ∀ x, x ∈ ys ↔ x ∈ xs

/-- The page has events of the item, none of which creates it or deletes it. -/
def Prolongs (page : List LogEvent) (item : ItemId) : Prop :=
  page.filter (·.isOf item) ≠ [] ∧ ∀ e ∈ page.filter (·.isOf item), e.isReset = false

/-- The page has been applied last, as far as the item is concerned, and is applied once more. -/
theorem Image.apply_again {s t : Session} {item : ItemId} {found : Option Ledger}
    {page : List LogEvent} {n : Nat}
    (h : Image s.keys item (Ledger.replay found (page.filter (·.isOf item))))
    (hrun : s.update (Replication.apply page) = (.ok n, t))
    (hitem : ∀ e ∈ page, ∀ f, e.effect? = some f → f.item = item ∨ f.item.Apart item) :
    (¬ Prolongs page item →
      ∀ k, t.keys.stored? (Key.sub item k) = s.keys.stored? (Key.sub item k)) ∧
    (Prolongs page item →
      Doubled ((page.filter (·.isOf item)).map LogEvent.slot) item s.keys t.keys) := by
  obtain ⟨hagain, hcreate⟩ := h.apply hrun hitem
  constructor
  · intro hnot
    by_cases hnil : page.filter (·.isOf item) = []
    · rw [hnil] at h hagain
      exact h.same hagain
    · obtain ⟨e, he, hof, hreset⟩ : ∃ e ∈ page, e.isOf item = true ∧ e.isReset = true := by
        simpa [Prolongs, hnil] using hnot
      have hmem := List.mem_filter.mpr ⟨he, hof⟩
      rw [Ledger.replay_eq_of_reset ⟨e, hmem, hreset⟩ _ found] at hagain
      exact h.same hagain
  · rintro ⟨hown, hplain⟩
    have hof : ∀ e ∈ page.filter (·.isOf item), e.isOf item = true := fun e he =>
      (List.mem_filter.mp he).2
    cases found with
    | none =>
      -- without an index only an event of creation could have been taken over
      rw [Ledger.replay_of_not_reset hof hplain] at hcreate
      obtain ⟨e, he, hcreates⟩ := (hcreate rfl).resolve_left hown
      have hreset := hplain e (List.mem_filter.mpr ⟨he, LogEvent.isOf_iff.mpr ⟨_, hcreates, rfl⟩⟩)
      simp [LogEvent.isReset, hcreates, Effect.item] at hreset
    | some l =>
      rw [Ledger.replay_of_not_reset hof hplain] at h
      rw [Ledger.replay_of_not_reset hof hplain, Ledger.replay_of_not_reset hof hplain] at hagain
      exact ⟨l.slots, _, _, h, hagain, fun x => Ledger.mem_realias_twice⟩

end Item

/-! ## Feeding a replica -/

namespace Run

/-- A replica with the pages that it has been fed with. Each of them was captured from some stage of
the primary and starts behind all events of its partition that the replica has got before. -/
inductive Fed (trace : List Step) : List (List LogEvent) → Session → Prop
  | start (clock : Clock) : Fed trace [] (Session.start clock)
  | page {pages : List (List LogEvent)} {s t : Session} {n size count : Nat} {first last : EventId}
      {page : Page (List LogEvent)} (h : Fed trace pages s)
      (hcapture : Replication.capture (leftBy (trace.take n)) first last size = .ok page)
      (hbehind : ∀ e ∈ pages.flatten, e.id.partition = first.partition → e.id.Before first)
      (happly : s.update (Replication.apply page.events) = (.ok count, t)) :
      Fed trace (pages ++ [page.events]) t

namespace Fed

variable {clock : Clock} {trace : List Step} {primary s : Session} {pages : List (List LogEvent)}
  {item : ItemId} (hfed : Fed trace pages s) (h : Reached clock trace primary)
  (hops : ∀ step ∈ trace, step.op.item? ≠ none)

include hfed h hops

/-- Every event is delivered once. -/
theorem nodup : (pages.flatten.map LogEvent.id).Nodup := by
  induction hfed with
  | start => exact List.nodup_nil
  | @page pages s t n size count first last page hfed hcapture hbehind happly ih =>
    have hcaptured := h.captured hops hcapture
    have hascending : page.events.Pairwise fun a b => a.id ≠ b.id :=
      hcaptured.ascending.imp fun {a b} hab (heq : a.id = b.id) =>
        EventId.not_before_self b.id (heq ▸ hab)
    rw [List.flatten_concat, List.map_append, List.nodup_append]
    refine ⟨ih, List.pairwise_map.mpr hascending, fun id hid other hother heq => ?_⟩
    obtain ⟨a, ha, rfl⟩ := List.mem_map.mp hid
    obtain ⟨b, hb, rfl⟩ := List.mem_map.mp hother
    have hpartition := hcaptured.partition b hb
    rw [← heq] at hpartition
    exact hcaptured.not_before b hb (heq ▸ hbehind a ha hpartition)

theorem effect {e : LogEvent} (he : e ∈ pages.flatten) {f : Effect} (hf : e.effect? = some f) :
    Items trace f.item ∧ f.item.tag = e.id.partition.toUInt16 := by
  induction hfed with
  | start => simp at he
  | page hfed hcapture _ _ ih =>
    rw [List.flatten_concat, List.mem_append] at he
    rcases he with he | he
    · exact ih he
    · exact (h.captured hops hcapture).effect e he f hf

/-- The log of the replica has what has been delivered. -/
theorem logged {e : LogEvent} (he : e ∈ pages.flatten) : Log.Has s.keys e := by
  induction hfed with
  | start => simp at he
  | @page pages s t n size count first last page hfed hcapture hbehind happly ih =>
    have hnodup := (hfed.page hcapture hbehind happly).nodup h hops
    rw [List.flatten_concat, List.map_append, List.nodup_append] at hnodup
    obtain ⟨-, hpage, hapart⟩ := hnodup
    have hlog := Replication.log_of_apply (Txn.update_eq_ok.mp happly) e.id
    rw [Log.Has, hlog]
    rw [List.flatten_concat, List.mem_append] at he
    rcases he with he | he
    · rw [s.keys.stored?_withLog_of_ne]
      · exact ih he
      · exact fun b hb heq => hapart _ (List.mem_map_of_mem he) _ (List.mem_map_of_mem hb)
          (Key.log_injective heq).symm
    · exact s.keys.stored?_withLog_of_mem hpage he

variable (hclear : Clear trace item)

include hclear

/-- An event is one of the item, or it leaves the index of the item alone. -/
theorem apart {e : LogEvent} (he : e ∈ pages.flatten) {f : Effect} (hf : e.effect? = some f) :
    f.item = item ∨ f.item.Apart item := by
  obtain ⟨⟨step, hstep, hsome⟩, -⟩ := hfed.effect h hops he hf
  by_cases heq : f.item = item
  · exact .inl heq
  · exact .inr (hclear.apart hstep hsome heq)

/-- The index of an item is what the events of the item make of nothing. -/
theorem image : Item.Image s.keys item
    (Ledger.replay none (pages.flatten.filter (·.isOf item))) := by
  induction hfed with
  | start => exact Item.image_empty item
  | @page pages s t n size count first last page hfed hcapture hbehind happly ih =>
    rw [List.flatten_concat, List.filter_append, Ledger.replay_append]
    refine (ih.apply happly fun e he f hf => ?_).1
    refine (hfed.page hcapture hbehind happly).apart h hops hclear ?_ hf
    rw [List.flatten_concat]
    exact List.mem_append_right _ he

theorem pointsOnce : Item.PointsOnce s.keys item := by
  refine (hfed.image h hops hclear).pointsOnce fun l hl => ?_
  have hslots := (Ledger.slots_sublist hl).map Prod.snd
  have hevents := (List.filter_sublist (p := (·.isOf item)) (l := pages.flatten)).map LogEvent.id
  refine (hfed.nodup h hops).sublist (List.Sublist.trans ?_ hevents)
  simpa [Function.comp_def, LogEvent.slot] using hslots

/-- The events of the item in a page come last, unless another page of the partition has followed. -/
theorem exists_image {before others : List (List LogEvent)} {page : List LogEvent}
    (hpages : pages = before ++ page :: others)
    (hothers : ∀ e ∈ others.flatten, ∀ own ∈ page, e.id.partition ≠ own.id.partition) :
    ∃ found, Item.Image s.keys item (Ledger.replay found (page.filter (·.isOf item))) := by
  have himage := hfed.image h hops hclear
  by_cases hown : page.filter (·.isOf item) = []
  · rw [hown]
    exact ⟨_, himage⟩
  obtain ⟨own, hmem⟩ := List.exists_mem_of_ne_nil _ hown
  obtain ⟨hmem, hof⟩ := List.mem_filter.mp hmem
  obtain ⟨f, hf, hitem⟩ := LogEvent.isOf_iff.mp hof
  obtain ⟨-, htag⟩ := hfed.effect h hops (by simp [hpages, hmem]) hf
  have hnil : others.flatten.filter (·.isOf item) = [] := by
    rw [List.filter_eq_nil_iff]
    intro e he hof
    obtain ⟨g, hg, hsame⟩ := LogEvent.isOf_iff.mp hof
    obtain ⟨-, htag'⟩ := hfed.effect h hops (by simp [hpages, List.mem_flatten.mp he]) hg
    rw [hsame, ← hitem, htag, UInt8.toUInt16_inj] at htag'
    exact hothers e he own hmem htag'.symm
  rw [hpages, List.flatten_append, List.flatten_cons, List.filter_append, List.filter_append, hnil,
    List.append_nil, Ledger.replay_append] at himage
  exact ⟨_, himage⟩

end Fed

/-- A replica has been fed with pages of a run of operations on items, and gets the last page of a
partition once more. Before that no two slots of an item point at the same entry of the log. The log
stays as it is, and if the takeover fails so does everything else. If it succeeds, the index of an
item stays as it is too, unless the page has events of the item of which none creates or deletes it.
Such an item gets these events a second time. -/
theorem page_redelivered (txns : List (List Op)) (clock : Clock)
    (hops : ∀ ops ∈ txns, ∀ op ∈ ops, op.item? ≠ none) {item : ItemId}
    (hclear : Clear (Run.trace txns clock) item) {before others : List (List LogEvent)}
    {page : List LogEvent} {s t : Session} {outcome : Outcome Nat}
    (hfed : Fed (Run.trace txns clock) (before ++ page :: others) s)
    (hothers : ∀ e ∈ others.flatten, ∀ own ∈ page, e.id.partition ≠ own.id.partition)
    (hagain : s.update (Replication.apply page) = (outcome, t)) :
    Item.PointsOnce s.keys item ∧ Log.Same s.keys t.keys ∧
      match outcome with
      | .error _ => t.keys = s.keys
      | .ok _ =>
        (¬ Item.Prolongs page item →
          ∀ k, t.keys.stored? (Key.sub item k) = s.keys.stored? (Key.sub item k)) ∧
        (Item.Prolongs page item →
          Item.Doubled ((page.filter (·.isOf item)).map LogEvent.slot) item s.keys t.keys) := by
  have h := reached txns clock
  have hops : ∀ step ∈ Run.trace txns clock, step.op.item? ≠ none :=
    forall_mem_trace (fun _ _ => Option.some_ne_none _) hops
  have hpage : page.Sublist (before ++ page :: others).flatten :=
    List.sublist_flatten_of_mem (by simp)
  refine ⟨hfed.pointsOnce h hops hclear, ?_⟩
  cases outcome with
  | error fault =>
    have hkeys := Txn.keys_of_update_error hagain
    exact ⟨fun id => by rw [hkeys], hkeys⟩
  | ok n =>
    have hthere := Log.same_withLog ((hfed.nodup h hops).sublist (hpage.map _)) fun e he =>
      hfed.logged h hops (hpage.subset he)
    have hlog := Replication.log_of_apply (Txn.update_eq_ok.mp hagain)
    obtain ⟨found, himage⟩ := hfed.exists_image h hops hclear rfl hothers
    refine ⟨fun id => (hlog id).trans (hthere id), himage.apply_again hagain fun e he f hf => ?_⟩
    exact hfed.apart h hops hclear (hpage.subset he) hf

namespace Redelivery

def x : ItemId := ⟨1, Utf8.encode "x"⟩

/-- An item with one event of its domain. -/
def txns : List (List Op) := [[.create x, .put x (.entity [1] [2])]]

/-- The entry of an event of the item. -/
def entry (timestamp : UInt64) (event : Event) : LogEvent :=
  ⟨event.kind, ⟨1, timestamp, 0⟩, (Envelope.wrap x event).encode.toOption.getD []⟩

def created : LogEvent := entry 5 (.lifecycle .created [])

def domain : LogEvent := entry 6 (.entity [1] [2])

/-- A replica that has got the two events, each in a page of its own. -/
def replica : Session :=
  (Replication.apply [domain]).leaves ((Replication.apply [created]).leaves (.start (.steady 0 1)))

theorem update_of_succeeds {events : List LogEvent} {s : Session}
    (h : (Replication.apply events).succeeds s = true) : s.update (Replication.apply events) =
      (.ok events.length, (Replication.apply events).leaves s) := by
  obtain ⟨n, t, hrun⟩ := Txn.succeeds_iff.mp h
  rw [Txn.leaves_of_ok hrun, Txn.update_eq_ok, hrun, (Replication.apply_eq_ok.mp hrun).1]

theorem fed : Fed (Run.trace txns (.steady 5 1)) [[created], [domain]] replica := by
  have hfirst : Replication.capture (leftBy ((Run.trace txns (.steady 5 1)).take 2)) (.first 1)
      (.last 1) 1 = .ok ⟨[created], some domain.id⟩ := Log.range_of_scan (by decide +kernel)
  have hsecond : Replication.capture (leftBy ((Run.trace txns (.steady 5 1)).take 2)) domain.id
      (.last 1) 1 = .ok ⟨[domain], none⟩ := Log.range_of_scan (by decide +kernel)
  have hbehind : created.id.Before domain.id := by
    unfold EventId.Before
    decide
  refine .page (.page (.start (.steady 0 1)) hfirst nofun
    (update_of_succeeds (by decide +kernel))) hsecond (fun e he _ => ?_)
    (update_of_succeeds (by decide +kernel))
  rw [List.mem_singleton.mp he]
  exact hbehind

theorem again : replica.update (Replication.apply [domain]) =
    (.ok 1, (Replication.apply [domain]).leaves replica) :=
  update_of_succeeds (by decide +kernel)

end Redelivery

open Redelivery in
/-- The event of the domain has taken slot 1, and takes slot 2 when its page comes once more. -/
theorem page_redelivered_domain : Clear (Run.trace txns (.steady 5 1)) x ∧
    Item.PointsOnce replica.keys x ∧ Item.Doubled [domain.slot] x replica.keys
      ((Replication.apply [domain]).leaves replica).keys := by
  have hclear : Clear (Run.trace txns (.steady 5 1)) x :=
    clear_of_alone (by simp [txns, Op.item?])
  have hprolongs : Item.Prolongs [domain] x := ⟨by decide +kernel, by decide +kernel⟩
  have hown : [domain].filter (·.isOf x) = [domain] := by decide +kernel
  have hfed : Fed (Run.trace txns (.steady 5 1)) ([[created]] ++ [domain] :: []) replica := fed
  obtain ⟨honce, -, -, hdoubled⟩ := page_redelivered txns (.steady 5 1)
    (by simp [txns, Op.item?]) hclear hfed (by simp) again
  rw [hown] at hdoubled
  exact ⟨hclear, honce, hdoubled hprolongs⟩

open Redelivery in
/-- A replica has been fed with a page, and takes over the same page once more. Its index is another
one then, with two slots that point at the same entry of the log. -/
theorem not_redelivery_unchanged :
    ∃ (before : List (List LogEvent)) (page : List LogEvent) (s t : Session),
      Fed (Run.trace txns (.steady 5 1)) (before ++ [page]) s ∧
        s.update (Replication.apply page) = (.ok 1, t) ∧
        t.keys.stored? (Key.version x) ≠ s.keys.stored? (Key.version x) ∧
        ¬ Item.PointsOnce t.keys x := by
  refine ⟨[[created]], [domain], _, _, fed, again, by decide +kernel, fun honce => ?_⟩
  have hone := honce 1 2 Kind.entity Kind.entity domain.id (by decide +kernel) (by decide +kernel)
  exact absurd hone (by decide)

end Run
end Chronicle
