import Mathlib
import Chronicle.Proofs.Redelivery

/-!
# Pointers after a second delivery

Partitions share the pointers of aliases. When a page is delivered twice, an alias that it sets or
removes is set or removed once more, whatever the events of other partitions have made of the alias
since: an item of another partition loses the alias then. All other pointers stay as they are, those
of other partitions among them.
-/
namespace Chronicle

variable {P : ItemId → Prop} {s t : Session} {d : Directory} {fs : List Effect} {x : ItemId}

/-! ## Aliases that events name -/

namespace Effect

/-- The event sets the alias or removes it. -/
def Names (x : ItemId) (f : Effect) : Prop := f = link f.item x ∨ f = unlink f.item x

end Effect

namespace Directory

/-- Events leave a pointer alone if they do not name the alias and delete no item that lists it. -/
theorem pointers_foldl (hnames : ∀ f ∈ fs, ¬ f.Names x)
    (hlisted : ∀ a, .delete a ∈ fs → x ∉ d.aliases a) :
    (fs.foldl take d).pointers x = d.pointers x := by
  induction fs generalizing d with
  | nil => rfl
  | cons f fs ih =>
    have hfirst : (d.take f).pointers x = d.pointers x := by
      have hnot := hnames f List.mem_cons_self
      rw [pointers_take]
      cases f with
      | create a | count a => rfl
      | link a y =>
        refine if_neg ?_
        rintro rfl
        exact hnot (.inl rfl)
      | unlink a y =>
        refine if_neg ?_
        rintro rfl
        exact hnot (.inr rfl)
      | delete a => exact if_neg (hlisted a List.mem_cons_self)
    rw [List.foldl_cons, ih (fun g hg => hnames g (List.mem_cons_of_mem f hg)), hfirst]
    intro a ha hx
    rcases Effect.mem_aliases_take hx with rfl | ⟨hold, -⟩
    · exact hnames _ List.mem_cons_self (.inl rfl)
    · exact hlisted a (List.mem_cons_of_mem f ha) hold

/-- An alias that events name leads to an item that they have given it to, if it leads anywhere. -/
theorem link_mem_of_pointers (hnames : ∃ f ∈ fs, f.Names x) {a : ItemId}
    (h : (fs.foldl take d).pointers x = some a) : .link a x ∈ fs := by
  induction fs using List.reverseRecOn with
  | nil => simp at hnames
  | append_singleton fs f ih =>
    rw [List.foldl_append] at h
    change ((fs.foldl take d).take f).pointers x = some a at h
    rw [pointers_take] at h
    -- what the event does not change goes back to an event before
    have hold : ¬ f.Names x → (fs.foldl take d).pointers x = some a → .link a x ∈ fs ++ [f] := by
      intro hnot hpointer
      obtain ⟨g, hg, hname⟩ := hnames
      rcases List.mem_append.mp hg with hg | hg
      · exact List.mem_append_left _ (ih ⟨g, hg, hname⟩ hpointer)
      · exact absurd (List.mem_singleton.mp hg ▸ hname) hnot
    cases f with
    | create b | count b => exact hold (by simp [Effect.Names]) h
    | link b y =>
      by_cases hxy : x = y
      · subst hxy
        simp only [Effect.point, if_true, Option.some.injEq] at h
        simp [h]
      · exact hold (by simp [Effect.Names, Ne.symm hxy]) (by simpa [Effect.point, hxy] using h)
    | unlink b y =>
      by_cases hxy : x = y
      · simp [Effect.point, hxy] at h
      · exact hold (by simp [Effect.Names, Ne.symm hxy]) (by simpa [Effect.point, hxy] using h)
    | delete b =>
      refine hold (by simp [Effect.Names]) ?_
      unfold Effect.point at h
      split_ifs at h
      exact h

/-! ## Pages that have been taken over -/

namespace Shown

theorem of_replicates {events : List LogEvent} (h : Shown P s.keys d) (hP : Separate P)
    (hkind : ∀ e ∈ events, Kind.isItem e.mark = true)
    (heffect : ∀ e ∈ events, ∀ f, e.effect? = some f → P f.item)
    (hlog : ∀ e ∈ events, s.keys.stored? (Key.log e.id) ≠ none)
    (hrun : events.forM Item.replicate s = .ok () t) :
    Shown P t.keys ((events.filterMap LogEvent.effect?).foldl take d) := by
  induction events generalizing s d with
  | nil =>
    obtain ⟨-, rfl⟩ := Txn.pure_eq_ok.mp hrun
    exact h
  | cons e events ih =>
    obtain ⟨_, u, hfirst, hrest⟩ := Txn.bind_eq_ok.mp hrun
    obtain ⟨f, hf⟩ := Item.exists_effect_of_replicate (hkind e List.mem_cons_self) hfirst
    have hlog_first := hlog e List.mem_cons_self
    have hnext := h.of_replicate hP (heffect e List.mem_cons_self f hf) hf hlog_first hfirst
    rw [List.filterMap_cons_some hf]
    refine ih hnext (fun other hother => hkind other (List.mem_cons_of_mem e hother))
      (fun other hother => heffect other (List.mem_cons_of_mem e hother)) (fun other hother => ?_) hrest
    exact Item.log_of_replicate hlog_first hfirst (hlog other (List.mem_cons_of_mem e hother))

/-- The events of a page that has been applied have had their effects, one after the other. -/
theorem of_apply {events : List LogEvent} {n : Nat} (h : Shown P s.keys d) (hP : Separate P)
    (heffect : ∀ e ∈ events, ∀ f, e.effect? = some f → P f.item)
    (hrun : s.update (Replication.apply events) = (.ok n, t)) :
    Shown P t.keys ((events.filterMap LogEvent.effect?).foldl take d) := by
  obtain ⟨-, hforM⟩ := Replication.apply_eq_ok.mp (Txn.update_eq_ok.mp hrun)
  rw [← LogEvent.filterMap_effect?]
  refine (h.withLog events).of_replicates (s := { s with keys := s.keys.withLog events }) hP
    (fun e he => (List.mem_filter.mp he).2) (fun e he => heffect e (List.mem_of_mem_filter he))
    (fun e he => ?_) hforM
  exact s.keys.stored?_withLog_ne_none (.inr ⟨e, List.mem_of_mem_filter he, rfl⟩)

end Shown

end Directory

/-! ## Pages delivered twice -/

/-- The page has an event that sets the alias or removes it. -/
def LogEvent.PageNames (page : List LogEvent) (x : ItemId) : Prop :=
  ∃ e ∈ page, ∃ f, e.effect? = some f ∧ f.Names x

namespace Run

variable {clock : Clock} {trace : List Step} {primary : Session} {pages : List (List LogEvent)}

/-- A replica shows what the events that it has been fed with make, in the order of the pages. -/
theorem Fed.shown (hfed : Fed trace pages s) (h : Reached clock trace primary)
    (hops : ∀ step ∈ trace, step.op.item? ≠ none) (hP : Separate (Items trace)) :
    Directory.Shown (Items trace) s.keys
      (Directory.replay (pages.flatten.filterMap LogEvent.effect?)) := by
  induction hfed with
  | start => exact Directory.shown_empty
  | @page pages s t n size count first last page hfed hcapture hbehind happly ih =>
    have hnext := hfed.page hcapture hbehind happly
    rw [List.flatten_concat, List.filterMap_append, Directory.replay, List.foldl_append]
    refine ih.of_apply hP (fun e he f hf => (hnext.effect h hops ?_ hf).1) happly
    rw [List.flatten_concat]
    exact List.mem_append_right _ he

/-- An item that a page deletes and creates again lists only what the page has given it, until
another page of the partition comes. -/
theorem Fed.link_mem_of_delete (hfed : Fed trace pages s) (h : Reached clock trace primary)
    (hops : ∀ step ∈ trace, step.op.item? ≠ none) {before others : List (List LogEvent)}
    {page : List LogEvent} (hpages : pages = before ++ page :: others)
    (hothers : ∀ e ∈ others.flatten, ∀ own ∈ page, e.id.partition ≠ own.id.partition) {a : ItemId}
    (hdelete : .delete a ∈ page.filterMap LogEvent.effect?)
    (hx : x ∈ (Directory.replay (pages.flatten.filterMap LogEvent.effect?)).aliases a) :
    .link a x ∈ page.filterMap LogEvent.effect? := by
  rw [hpages, List.flatten_append, List.flatten_cons, List.filterMap_append, List.filterMap_append,
    Directory.replay, List.foldl_append, List.foldl_append] at hx
  rcases Effect.mem_aliases_foldl hx with hlink | ⟨hx, -⟩
  · -- the page and the others have no partition in common
    obtain ⟨own, hown, hf⟩ := List.mem_filterMap.mp hdelete
    obtain ⟨e, he, hg⟩ := List.mem_filterMap.mp hlink
    have htag : a.tag = own.id.partition.toUInt16 :=
      (hfed.effect h hops (by simp [hpages, hown]) hf).2
    have htag' : a.tag = e.id.partition.toUInt16 :=
      (hfed.effect h hops (by simp [hpages, List.mem_flatten.mp he]) hg).2
    rw [htag, UInt8.toUInt16_inj] at htag'
    exact absurd htag'.symm (hothers e he own hown)
  · rcases Effect.mem_aliases_foldl hx with hlink | ⟨-, -, hnot⟩
    · exact hlink
    · exact absurd hdelete hnot

/-- A replica has been fed with pages of a run of operations on items, and takes over the last page of
a partition once more. The pointer of an alias that the page does not name stays as it is, whichever
partition it leads to. An alias that the page names leads to an item of the partition of the page
which the page has given it to, or nowhere. -/
theorem pointers_redelivered (txns : List (List Op)) (clock : Clock)
    (hops : ∀ ops ∈ txns, ∀ op ∈ ops, op.item? ≠ none)
    (hclear : ∀ item, Items (Run.trace txns clock) item → Clear (Run.trace txns clock) item)
    {before others : List (List LogEvent)} {page : List LogEvent} {s t : Session} {n : Nat}
    (hfed : Fed (Run.trace txns clock) (before ++ page :: others) s)
    (hothers : ∀ e ∈ others.flatten, ∀ own ∈ page, e.id.partition ≠ own.id.partition)
    (hagain : s.update (Replication.apply page) = (.ok n, t)) (x : ItemId) :
    (¬ LogEvent.PageNames page x →
      t.keys.stored? (Key.pointer x) = s.keys.stored? (Key.pointer x)) ∧
    (LogEvent.PageNames page x → ∀ a, Item.resolve t.keys x = .ok a →
      ∃ e ∈ page, e.effect? = some (.link a x) ∧ a.tag = e.id.partition.toUInt16) := by
  have h := reached txns clock
  have hops : ∀ step ∈ Run.trace txns clock, step.op.item? ≠ none :=
    forall_mem_trace (fun _ _ => Option.some_ne_none _) hops
  have hP := separate_items hclear
  have hmem : ∀ e ∈ page, e ∈ (before ++ page :: others).flatten := fun e he => by simp [he]
  have hshown := hfed.shown h hops hP
  have hagain := hshown.of_apply hP (fun e he f hf => (hfed.effect h hops (hmem e he) hf).1) hagain
  constructor
  · intro hnot
    have hnames : ∀ f ∈ page.filterMap LogEvent.effect?, ¬ f.Names x := by
      intro f hf hname
      obtain ⟨e, he, heffect⟩ := List.mem_filterMap.mp hf
      exact hnot ⟨e, he, f, heffect, hname⟩
    rw [hagain.pointer, hshown.pointer, Directory.pointers_foldl hnames]
    intro a hdelete hx
    exact hnames _ (hfed.link_mem_of_delete h hops rfl hothers hdelete hx) (.inl rfl)
  · rintro ⟨e, he, f, heffect, hname⟩ a hresolve
    have hlink := Directory.link_mem_of_pointers
      ⟨f, List.mem_filterMap.mpr ⟨e, he, heffect⟩, hname⟩ (hagain.resolve_iff.mp hresolve)
    obtain ⟨e, he, hf⟩ := List.mem_filterMap.mp hlink
    exact ⟨e, he, hf, (hfed.effect h hops (hmem e he) hf).2⟩

namespace AliasLost

def a : ItemId := ⟨1, Utf8.encode "a"⟩

def b : ItemId := ⟨2, Utf8.encode "b"⟩

def z : ItemId := ⟨1, Utf8.encode "z"⟩

/-- An alias goes from an item of one partition to one of another. -/
def txns : List (List Op) := [[.create a, .addAlias a z, .removeAlias a z], [.create b, .addAlias b z]]

/-- The entry of an event of the item. -/
def entry (item : ItemId) (timestamp : UInt64) (event : Event) : LogEvent :=
  ⟨event.kind, ⟨item.tag.toUInt8, timestamp, 0⟩, (Envelope.wrap item event).encode.toOption.getD []⟩

def created : LogEvent := entry a 5 (.lifecycle .created [])

/-- The events that set the alias and remove it. -/
def page : List LogEvent :=
  [entry a 6 (.lifecycle .aliased z.encode), entry a 7 (.lifecycle .unaliased z.encode)]

/-- The events of the other partition. -/
def others : List LogEvent :=
  [entry b 8 (.lifecycle .created []), entry b 9 (.lifecycle .aliased z.encode)]

def replica : Session := (Replication.apply others).leaves ((Replication.apply page).leaves
  ((Replication.apply [created]).leaves (.start (.steady 0 1))))

theorem fed : Fed (Run.trace txns (.steady 5 1)) ([[created]] ++ page :: [others]) replica := by
  have hcreated : Replication.capture (leftBy ((Run.trace txns (.steady 5 1)).take 5)) (.first 1)
      (.last 1) 1 = .ok ⟨[created], some ⟨1, 6, 0⟩⟩ := Log.range_of_scan (by decide +kernel)
  have hpage : Replication.capture (leftBy ((Run.trace txns (.steady 5 1)).take 5)) ⟨1, 6, 0⟩
      (.last 1) 2 = .ok ⟨page, none⟩ := Log.range_of_scan (by decide +kernel)
  have hothers : Replication.capture (leftBy ((Run.trace txns (.steady 5 1)).take 5)) (.first 2)
      (.last 2) 2 = .ok ⟨others, none⟩ := Log.range_of_scan (by decide +kernel)
  have hbefore : created.id.Before ⟨1, 6, 0⟩ := by
    unfold EventId.Before
    decide
  refine .page (.page (.page (.start (.steady 0 1)) hcreated nofun
    (Redelivery.update_of_succeeds (by decide +kernel))) hpage (fun e he _ => ?_)
    (Redelivery.update_of_succeeds (by decide +kernel))) hothers ?_
    (Redelivery.update_of_succeeds (by decide +kernel))
  · rw [List.mem_singleton.mp he]
    exact hbefore
  · -- nothing of the other partition has come before
    intro e he hpartition
    have hfirst : ∀ e ∈ ([[created]] ++ [page]).flatten, e.id.partition = 1 := by decide +kernel
    rw [hfirst e he] at hpartition
    cases hpartition

end AliasLost

open AliasLost in
/-- The page comes once more when the alias has gone over to the item of the other partition, and the
alias does not lead there any longer. -/
theorem pointers_redelivered_lost :
    (∀ item, Items (Run.trace txns (.steady 5 1)) item → Clear (Run.trace txns (.steady 5 1)) item) ∧
      Item.resolve replica.keys z = .ok b ∧ ∃ t, replica.update (Replication.apply page) = (.ok 2, t) ∧
        Item.resolve t.keys z ≠ .ok b := by
  have hlength : a.name.length = 1 ∧ b.name.length = 1 := by decide
  have hclear : ∀ item, Items (Run.trace txns (.steady 5 1)) item →
      Clear (Run.trace txns (.steady 5 1)) item :=
    clear_items_of_length (n := 1) (by simp [txns, Op.item?, hlength])
  have hothers : ∀ e ∈ [others].flatten, ∀ own ∈ page, e.id.partition ≠ own.id.partition := by
    decide +kernel
  have hagain : replica.update (Replication.apply page) =
      (.ok 2, (Replication.apply page).leaves replica) :=
    Redelivery.update_of_succeeds (by decide +kernel)
  have hnames : LogEvent.PageNames page z :=
    ⟨_, List.mem_cons_self, .link a z, by decide +kernel, .inl rfl⟩
  refine ⟨hclear, Outcome.eq_ok_of_toOption (by decide +kernel), _, hagain, fun hresolve => ?_⟩
  obtain ⟨e, he, -, htag⟩ := (pointers_redelivered txns (.steady 5 1) (by simp [txns, Op.item?])
    hclear fed hothers hagain z).2 hnames b hresolve
  have hpartition : ∀ e ∈ page, b.tag ≠ e.id.partition.toUInt16 := by decide +kernel
  exact hpartition e he htag

end Run
end Chronicle
