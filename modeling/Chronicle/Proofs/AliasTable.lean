import Mathlib
import Chronicle.Proofs.Counters
import Chronicle.Proofs.DirectoryStore
import Chronicle.Proofs.Streams

/-!
# Aliases of a run

The directory that a run builds up is in its store after every step, and each operation checks what
it takes to keep the directory consistent: an item is created only where there is none, an alias is
added only if it is free, and removed only from the item that it points at.
-/
namespace Chronicle

/-- What an operation does to the directory when it succeeds. -/
def Directory.next (d : Directory) : Op → Directory
  | .create item => (d.start item).count item
  | .put item _ => d.count item
  | .addAlias item x => (d.count item).link item x
  | .removeAlias item x => (d.count item).unlink item x
  | .delete item => (d.count item).drop item
  | .ensure =>
    if (d.listings registryItem).isSome then d else (d.start registryItem).count registryItem
  | .mutate _ => d.count registryItem
  | .sync _ _ _ _ | .log _ _ | .logAt _ _ _ => d

/-- The items and aliases after a run. -/
def directory (trace : List Step) : Directory :=
  trace.foldl (fun d step => d.next step.op) .empty

theorem directory_snoc (trace : List Step) (step : Step) :
    directory (trace ++ [step]) = (directory trace).next step.op := by
  rw [directory, List.foldl_append]
  rfl

variable {P : ItemId → Prop} {s t : Session} {d : Directory} {a x : ItemId}

/-! ## One step -/

namespace Directory

theorem listings_count_self : (d.count a).listings a ≠ none ↔ d.listings a ≠ none := by
  rw [count, listings_modify_self]
  simp

namespace Shown

theorem resolve_iff {keys : KeySpace} (h : Shown P keys d) :
    Item.resolve keys x = .ok a ↔ d.pointers x = some a := by
  have hstored := h.pointer x
  have hkey : Key.pointer x ≠ [] := nofun
  unfold Item.resolve
  cases hx : d.pointers x with
  | none =>
    rw [hx] at hstored
    rw [KeySpace.get_eq_none hkey hstored]
    simp [bind, Except.bind]
  | some item =>
    rw [hx] at hstored
    rw [KeySpace.get_eq_some (e := ⟨0, item.encode⟩) hkey hstored]
    simp [bind, Except.bind, ItemId.decode_encode]

variable (h : Shown P s.keys d) (hP : Separate P) (ha : P a)

include h hP ha

theorem create {v : Unit} (hrun : Item.create a s = .ok v t) :
    d.listings a = none ∧ Shown P t.keys ((d.start a).count a) := by
  obtain ⟨u, hthere, hinit, happend⟩ := Item.create_eq_ok hrun
  have hself : (d.start a).listings a = some ⟨0, []⟩ := Function.update_self _ _ _
  exact ⟨(h.index a ha).eq_none hthere, (h.initIndex hP ha hinit).append hP ha hself happend⟩

theorem delete {v : Unit} (hrun : Item.delete a s = .ok v t) :
    Shown P t.keys ((d.count a).drop a) := by
  obtain ⟨slot, u, hput, hteardown⟩ := Item.delete_eq_ok hrun
  obtain ⟨hthere, hcount⟩ := h.putNext hP ha (Item.put_eq_ok.mp hput).2
  exact hcount.teardown hP ha (listings_count_self.mpr hthere) hteardown

theorem addAlias {v : Unit} (hrun : Item.addAlias a x s = .ok v t) :
    d.listings a ≠ none ∧ d.pointers x = none ∧ Shown P t.keys ((d.count a).link a x) := by
  obtain ⟨slot, u, hput, hlink⟩ := Item.addAlias_eq_ok hrun
  obtain ⟨hthere, hcount⟩ := h.putNext hP ha (Item.put_eq_ok.mp hput).2
  have hfree := h.pointer x
  rw [Item.addAlias_free hrun, eq_comm, Option.map_eq_none_iff] at hfree
  exact ⟨hthere, hfree, hcount.link hP ha (listings_count_self.mpr hthere) hlink⟩

theorem removeAlias {v : Unit} (hrun : Item.removeAlias a x s = .ok v t) :
    d.pointers x = some a ∧ Shown P t.keys ((d.count a).unlink a x) := by
  obtain ⟨slot, u, hresolve, hput, hunlink⟩ := Item.removeAlias_eq_ok hrun
  obtain ⟨hthere, hcount⟩ := h.putNext hP ha (Item.put_eq_ok.mp hput).2
  exact ⟨h.resolve_iff.mp hresolve, hcount.unlink hP ha (listings_count_self.mpr hthere) hunlink⟩

end Shown

/-- The directory of a key space is consistent. -/
structure Kept (P : ItemId → Prop) (keys : KeySpace) (d : Directory) : Prop where
  shown : d.Shown P keys
  consistent : d.Consistent

theorem Kept.next {op : Op} {reply : Reply} (h : d.Kept P s.keys) (hP : Separate P)
    (hitem : ∀ a, op.item? = some a → P a) (hready : op.Ready s.keys)
    (hop : op.run s = .ok reply t) : (d.next op).Kept P t.keys := by
  obtain ⟨hshown, hconsistent⟩ := h
  have hcreate : ∀ {item : ItemId}, P item → Item.create item s = .ok () t →
      ((d.start item).count item).Kept P t.keys := by
    intro item hitem hrun
    obtain ⟨hnone, hshown⟩ := hshown.create hP hitem hrun
    exact ⟨hshown, (hconsistent.start hnone).count⟩
  cases Op.done hready rfl hop with
  | @create item hrun => exact hcreate (hitem item rfl) hrun
  | @put item event slot hrun =>
    exact ⟨(hshown.putNext hP (hitem item rfl) (Item.put_eq_ok.mp hrun).2).2, hconsistent.count⟩
  | @addAlias item x hrun =>
    obtain ⟨hthere, hfree, hshown⟩ := hshown.addAlias hP (hitem item rfl) hrun
    exact ⟨hshown, hconsistent.count.link (listings_count_self.mpr hthere) hfree⟩
  | @removeAlias item x hrun =>
    obtain ⟨hpoints, hshown⟩ := hshown.removeAlias hP (hitem item rfl) hrun
    exact ⟨hshown, hconsistent.count.unlink hpoints⟩
  | @delete item hrun =>
    exact ⟨hshown.delete hP (hitem item rfl) hrun, hconsistent.count.drop⟩
  | @sync _ item _ _ _ _ hrun => exact ⟨hshown.sync hP (hitem item rfl) hrun, hconsistent⟩
  | found hthere hsame =>
    have hindex := (hshown.index registryItem (hitem registryItem rfl)).isThere
    rw [hthere, Except.ok.injEq] at hindex
    rw [Directory.next, if_pos hindex.symm, ← hsame]
    exact ⟨hshown, hconsistent⟩
  | ensure hthere hrun =>
    have hregistry := hitem registryItem rfl
    have hindex := (hshown.index registryItem hregistry).isThere
    rw [hthere, Except.ok.injEq] at hindex
    rw [Directory.next, if_neg (by simp [← hindex])]
    exact hcreate hregistry hrun
  | mutate _ hput =>
    exact ⟨(hshown.putNext hP (hitem registryItem rfl) hput).2, hconsistent.count⟩
  | log hrun =>
    exact ⟨hshown.of_log (Txn.Keeps.writes_of_ok (Log.writes_put _ _ fun id => ⟨id, rfl⟩) hrun).within,
      hconsistent⟩
  | logAt hrun =>
    exact ⟨hshown.of_log
      (Txn.Keeps.writes_of_ok (Log.writes_putAt _ _ _ fun id => ⟨id, rfl⟩) hrun).within, hconsistent⟩

end Directory

theorem Registry.keepsCounted_ensure (hregistry : P registryItem) : ensure.KeepsCounted P :=
  keeps_ensure_of_create (Item.keepsCounted_create hregistry)

theorem Mutation.keepsCounted (hregistry : P registryItem) (m : Mutation) :
    m.run.KeepsCounted P :=
  m.keeps (Registry.keepsCounted_ensure hregistry) (Item.keepsCounted_putNext hregistry)

theorem Op.keepsCounted {op : Op} (hitem : ∀ a, op.item? = some a → P a) :
    op.run.KeepsCounted P := by
  cases op with
  | create item => exact (Item.keepsCounted_create (hitem item rfl)).map
  | put item event => exact (Item.keepsCounted_put (hitem item rfl) event).map
  | addAlias item x => exact (Item.keepsCounted_addAlias (hitem item rfl) x).map
  | removeAlias item x => exact (Item.keepsCounted_removeAlias (hitem item rfl) x).map
  | delete item => exact (Item.keepsCounted_deleteItem (hitem item rfl)).map
  | sync item name view initial => exact (Item.keepsCounted_sync name view initial).map
  | ensure => exact (Registry.keepsCounted_ensure (hitem registryItem rfl)).map
  | mutate m => exact (m.keepsCounted (hitem registryItem rfl)).map
  | log partition event => exact (Log.keepsCounted_put _ _).map
  | logAt partition timestamp event => exact (Log.keepsCounted_putAt _ _ _).map

/-! ## A run -/

namespace Run

variable {clock : Clock} {trace : List Step}

/-- The items that a run is about. -/
def Items (trace : List Step) (item : ItemId) : Prop :=
  ∃ step ∈ trace, step.op.item? = some item

theorem separate_items (hclear : ∀ item, Items trace item → Clear trace item) :
    Separate (Items trace) := by
  rintro a b ⟨step, hstep, ha⟩ hb hne
  obtain ⟨hab, hba⟩ := hclear b hb step hstep a ha
  exact ItemId.apart_of_not_continues hne hba hab

theorem Reached.kept (h : Reached clock trace s) (hP : Separate P)
    (hitem : ∀ item, Items trace item → P item) :
    (directory trace).Kept P s.keys ∧ Counted P s.keys := by
  induction h with
  | start => exact ⟨⟨Directory.shown_empty, .empty⟩, .empty⟩
  | abort h hkeys _ _ ih =>
    rw [hkeys]
    exact ih hitem
  | @step trace s t op reply h hready hop ih =>
    have hop_item : ∀ a, op.item? = some a → P a := fun a ha =>
      hitem a ⟨_, List.mem_append_right _ List.mem_cons_self, ha⟩
    obtain ⟨hkept, hcounted⟩ := ih fun item ⟨other, hother, ha⟩ =>
      hitem item ⟨other, List.mem_append_left _ hother, ha⟩
    rw [directory_snoc]
    exact ⟨hkept.next hP hop_item hready hop, (Op.keepsCounted hop_item).of_ok hcounted hop⟩

end Run

/-! ## Reading aliases -/

namespace Item

/-- An alias resolves to an item exactly if the item is there and has it among its aliases. -/
def AliasesResolve (keys : KeySpace) : Prop :=
  ∀ x item, resolve keys x = .ok item ↔
    isThere keys item = .ok true ∧ ∃ xs, aliases keys item = .ok xs ∧ x ∈ xs

variable {keys : KeySpace} {item : ItemId} {xs : List ItemId}

theorem aliases_eq_ok : aliases keys item = .ok xs ↔
    (∃ n, version keys item = .ok n) ∧ aliasList keys item = .ok xs := by
  unfold aliases
  cases version keys item with
  | error fault => simp [bind, Except.bind]
  | ok n => simp [bind, Except.bind]

end Item

namespace Directory.Shown

variable {keys : KeySpace} {item : ItemId} {xs : List ItemId}

theorem aliases_eq_ok_iff (h : Shown P keys d) (hcounted : Counted P keys) :
    Item.aliases keys item = .ok xs ↔ d.listings item ≠ none ∧ d.aliases item = xs := by
  rw [Item.aliases_eq_ok]
  constructor
  · rintro ⟨⟨n, hversion⟩, hlist⟩
    have hindex := h.index item (hcounted item n hversion)
    obtain ⟨listing, hlisting, -⟩ := hindex.eq_some hversion
    rw [hlisting] at hindex
    rw [hindex.2.1, Except.ok.injEq] at hlist
    rw [aliases_of_listing hlisting]
    exact ⟨by rw [hlisting]; exact Option.some_ne_none _, hlist⟩
  · rintro ⟨hthere, rfl⟩
    obtain ⟨listing, hlisting⟩ := Option.ne_none_iff_exists'.mp hthere
    have hindex := h.index item (by_contra fun hout => hthere (h.outside item hout))
    rw [hlisting] at hindex
    rw [aliases_of_listing hlisting]
    exact ⟨⟨_, hindex.1⟩, hindex.2.1⟩

/-- The aliases that can be read are those of the directory. -/
theorem mem_aliases_iff (h : Shown P keys d) (hcounted : Counted P keys) :
    (∃ xs, Item.aliases keys item = .ok xs ∧ x ∈ xs) ↔ x ∈ d.aliases item := by
  constructor
  · rintro ⟨xs, hxs, hx⟩
    rw [((h.aliases_eq_ok_iff hcounted).mp hxs).2]
    exact hx
  · intro hx
    have hthere : d.listings item ≠ none := by
      intro hnone
      rw [aliases_of_none hnone] at hx
      cases hx
    exact ⟨_, (h.aliases_eq_ok_iff hcounted).mpr ⟨hthere, rfl⟩, hx⟩

theorem lists_iff (h : Shown P keys d) (hcounted : Counted P keys) :
    (Item.isThere keys item = .ok true ∧ ∃ xs, Item.aliases keys item = .ok xs ∧ x ∈ xs) ↔
      x ∈ d.aliases item := by
  rw [h.mem_aliases_iff hcounted, and_iff_right_iff_imp]
  intro hx
  obtain ⟨xs, hxs, -⟩ := (h.mem_aliases_iff hcounted).mpr hx
  obtain ⟨⟨n, hversion⟩, -⟩ := Item.aliases_eq_ok.mp hxs
  exact (Item.isThere_of_version hversion).1

/-- Aliases resolve in the store as the directory says. -/
theorem aliasesResolve_iff (h : Shown P keys d) (hcounted : Counted P keys) :
    Item.AliasesResolve keys ↔ ∀ x item, d.pointers x = some item ↔ x ∈ d.aliases item := by
  refine forall_congr' fun x => forall_congr' fun item => ?_
  rw [h.resolve_iff, h.lists_iff hcounted]

end Directory.Shown

namespace Run

/-- After any run of operations on items that keep apart, aliases resolve to exactly the items that
list them, no item lists one twice, no two items list the same one, and to read by an alias is to
read the item that lists it. -/
theorem aliases_resolve (txns : List (List Op)) (clock : Clock)
    (hclear : ∀ item, Items (trace txns clock) item → Clear (trace txns clock) item) :
    Item.AliasesResolve (result txns clock) ∧
      (∀ item xs, Item.aliases (result txns clock) item = .ok xs → xs.Nodup) ∧
      (∀ a b xs ys x, Item.aliases (result txns clock) a = .ok xs →
        Item.aliases (result txns clock) b = .ok ys → x ∈ xs → x ∈ ys → a = b) ∧
      ∀ item xs x first last, Item.aliases (result txns clock) item = .ok xs → x ∈ xs →
        Item.loadByAlias (result txns clock) x first last =
          Item.load (result txns clock) item first last := by
  obtain ⟨⟨hshown, hconsistent⟩, hcounted⟩ :=
    (reached txns clock).kept (separate_items hclear) fun _ hitem => hitem
  have hresolve : Item.AliasesResolve (result txns clock) :=
    (hshown.aliasesResolve_iff hcounted).mpr fun x item => hconsistent.pointers_iff
  have hresolve_of_mem : ∀ {item xs x}, Item.aliases (result txns clock) item = .ok xs → x ∈ xs →
      Item.resolve (result txns clock) x = .ok item := by
    intro item xs x hxs hx
    obtain ⟨⟨n, hversion⟩, -⟩ := Item.aliases_eq_ok.mp hxs
    exact (hresolve x item).mpr ⟨(Item.isThere_of_version hversion).1, xs, hxs, hx⟩
  refine ⟨hresolve, ?_, ?_, ?_⟩
  · intro item xs hxs
    rw [← ((hshown.aliases_eq_ok_iff hcounted).mp hxs).2]
    exact hconsistent.nodup item
  · intro a b xs ys x hxs hys hx hy
    have hsame := (hresolve_of_mem hxs hx).symm.trans (hresolve_of_mem hys hy)
    exact Except.ok.inj hsame
  · intro item xs x first last hxs hx
    rw [Item.loadByAlias, hresolve_of_mem hxs hx]
    rfl

/-- The items of a run keep apart if their names have one length. -/
theorem clear_items_of_length {txns : List (List Op)} {clock : Clock} {n : Nat}
    (h : ∀ ops ∈ txns, ∀ op ∈ ops, ∀ a, op.item? = some a → a.name.length = n) (item : ItemId)
    (hitem : Items (trace txns clock) item) : Clear (trace txns clock) item := by
  obtain ⟨step, hstep, hsome⟩ := hitem
  have hlength : item.name.length = n := forall_mem_trace
    (Q := fun op => ∀ a, op.item? = some a → a.name.length = n) (fun _ h => h) h step hstep item hsome
  exact clear_of_length (hlength ▸ h)

/-- An alias goes from one item to another, and then the first item goes. -/
def aliasMoved (a b x : ItemId) : List (List Op) :=
  [[.create a, .create b, .addAlias a x], [.removeAlias a x, .addAlias b x], [.delete a]]

theorem items_aliasMoved {a b x item : ItemId} {clock : Clock}
    (hitem : Items (trace (aliasMoved a b x) clock) item) : item = a ∨ item = b := by
  obtain ⟨step, hstep, hsome⟩ := hitem
  obtain ⟨ops, hops, op, hop, hstage⟩ := op_mem_of_mem_trace hstep
  simp only [aliasMoved, List.mem_cons, List.not_mem_nil, or_false] at hops
  rcases hops with rfl | rfl | rfl
  all_goals
    simp only [List.mem_cons, List.not_mem_nil, or_false] at hop
    rcases hop with rfl | rfl | rfl
  all_goals
    rw [List.mem_singleton.mp hstage, Op.item?, Option.some.injEq] at hsome
    simp [hsome]

theorem clear_aliasMoved {a b x : ItemId} (hlength : a.name.length = b.name.length) (clock : Clock)
    (item : ItemId) (hitem : Items (trace (aliasMoved a b x) clock) item) :
    Clear (trace (aliasMoved a b x) clock) item :=
  clear_items_of_length (n := b.name.length) (by simp [aliasMoved, Op.item?, hlength]) item hitem

theorem aliases_resolve_aliasMoved :
    (∀ item, Items (trace (aliasMoved ⟨1, [120]⟩ ⟨2, [121]⟩ ⟨1, [122]⟩) (.steady 5 1)) item →
      Clear (trace (aliasMoved ⟨1, [120]⟩ ⟨2, [121]⟩ ⟨1, [122]⟩) (.steady 5 1)) item) ∧
    Item.aliases (result (aliasMoved ⟨1, [120]⟩ ⟨2, [121]⟩ ⟨1, [122]⟩) (.steady 5 1)) ⟨2, [121]⟩ =
      .ok [⟨1, [122]⟩] ∧
    Item.resolve (result (aliasMoved ⟨1, [120]⟩ ⟨2, [121]⟩ ⟨1, [122]⟩) (.steady 5 1)) ⟨1, [122]⟩ =
      .ok ⟨2, [121]⟩ := by
  have hclear := clear_aliasMoved (a := ⟨1, [120]⟩) (b := ⟨2, [121]⟩) (x := ⟨1, [122]⟩) rfl
    (.steady 5 1)
  have h := aliases_resolve (aliasMoved ⟨1, [120]⟩ ⟨2, [121]⟩ ⟨1, [122]⟩) (.steady 5 1) hclear
  have haliases : Item.aliases (result (aliasMoved ⟨1, [120]⟩ ⟨2, [121]⟩ ⟨1, [122]⟩) (.steady 5 1))
      ⟨2, [121]⟩ = .ok [⟨1, [122]⟩] := Outcome.eq_ok_of_toOption (by decide +kernel)
  obtain ⟨⟨n, hversion⟩, -⟩ := Item.aliases_eq_ok.mp haliases
  exact ⟨hclear, haliases, (h.1 _ _).mpr
    ⟨(Item.isThere_of_version hversion).1, _, haliases, List.mem_singleton_self _⟩⟩

end Run
end Chronicle
