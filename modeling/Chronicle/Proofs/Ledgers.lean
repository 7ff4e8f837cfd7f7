import Mathlib
import Chronicle.Proofs.EffectTakeover

/-!
# Indexes byte by byte

The index of an item without views is a ledger written out: the log entries that its slots point at,
in order, and the list of its aliases. The takeover of an event does to the index of its item what
the event does to the ledger, and nothing to the index of any other item.
-/
namespace Chronicle

/-- For each slot its mark and the log entry that it points at, and the aliases. -/
structure Ledger where
  slots : List (UInt8 × EventId)
  aliases : List ItemId

namespace Ledger

/-- What is stored under a key of the index. -/
def stored (l : Ledger) : SubKey → Option Bytes
  | .version => some (0 :: Counter.encode (UInt64.ofNat l.slots.length))
  | .aliases => (record l.aliases).toOption.map (0 :: ·)
  | .slot n => l.slots[n.toNat]?.map fun slot => slot.1 :: Key.log slot.2
  | .view name => if name = [] then some (0 :: List.replicate 8 0) else none

/-- The ledger can be written out. -/
structure Fits (l : Ledger) : Prop where
  slots : l.slots.length < Bytes.capacity 8
  aliases : ∃ bytes, record l.aliases = .ok bytes

end Ledger

namespace Item

/-- The index of the item is the ledger written out, or nothing at all. -/
structure Image (keys : KeySpace) (item : ItemId) (found : Option Ledger) : Prop where
  stored : ∀ k, keys.stored? (Key.sub item k) = found.bind fun l => l.stored k
  fits : ∀ l ∈ found, l.Fits

variable {a b : KeySpace} {s t : Session} {item x : ItemId} {found : Option Ledger} {l : Ledger}

theorem image_empty (item : ItemId) : Image .empty item none :=
  ⟨fun _ => KeySpace.stored?_empty _, nofun⟩

namespace Image

theorem congr (h : Image a item found)
    (hsub : ∀ k, b.stored? (Key.sub item k) = a.stored? (Key.sub item k)) : Image b item found :=
  ⟨fun k => (hsub k).trans (h.stored k), h.fits⟩

theorem same (ha : Image a item found) (hb : Image b item found) (k : SubKey) :
    b.stored? (Key.sub item k) = a.stored? (Key.sub item k) := (hb.stored k).trans (ha.stored k).symm

theorem isThere (h : Image a item found) : isThere a item = .ok found.isSome := by
  cases found with
  | none => exact isThere_eq_false_iff.mpr (h.stored .version)
  | some l => exact KeySpace.contains_eq_true (Key.index_ne_nil _ _ _) (h.stored .version)

theorem version (h : Image a item (some l)) : version a item = .ok l.slots.length :=
  version_of_stored (h.fits l rfl).slots (h.stored .version)

theorem aliasList (h : Image a item (some l)) : aliasList a item = .ok l.aliases := by
  obtain ⟨bytes, hbytes⟩ := (h.fits l rfl).aliases
  have hstored : a.stored? (Key.aliases item) = some (0 :: bytes) := by
    refine (h.stored .aliases).trans ?_
    simp [Ledger.stored, hbytes, Except.toOption]
  rw [aliasList_of_some hstored, recorded_record hbytes]

theorem viewList (h : Image a item (some l)) : viewList a item = .ok [] :=
  viewList_of_some (h.stored (.view [])) (recorded_record record_nil)

theorem exists_ledger {n : Nat} (h : Image a item found) (hversion : Item.version a item = .ok n) :
    ∃ l, found = some l ∧ l.slots.length = n := by
  cases found with
  | none =>
    have hthere := h.isThere
    rw [(isThere_of_version hversion).1] at hthere
    cases hthere
  | some l =>
    rw [h.version, Except.ok.injEq] at hversion
    exact ⟨l, rfl, hversion⟩

/-! ## Parts of a takeover -/

theorem initIndex {v : Unit} (h : Image s.keys item none) (hrun : initIndex item s = .ok v t) :
    Image t.keys item (some ⟨[], []⟩) := by
  refine ⟨fun k => ?_, ?_⟩
  · rw [stored?_initIndex hrun, h.stored]
    cases k with
    | version => rfl
    | aliases => simp [Ledger.stored, record_nil, Except.toOption]
    | slot n => simp [Ledger.stored]
    | view name => simp [Ledger.stored]
  · rintro _ ⟨⟩
    exact ⟨by decide, _, record_nil⟩

theorem recordSlot {id : EventId} {kind : UInt8} {v : Unit} (h : Image s.keys item (some l))
    (hrun : recordSlot item l.slots.length id kind s = .ok v t) :
    Image t.keys item (some ⟨l.slots ++ [(kind, id)], l.aliases⟩) := by
  have hstored := stored?_slot_recordSlot hrun
  obtain ⟨hslot, rfl⟩ := recordSlot_eq_ok hrun
  refine ⟨fun k => ?_, ?_⟩
  · cases k with
    | slot n =>
      refine (hstored n).trans ?_
      change _ = (l.slots ++ [(kind, id)])[n.toNat]?.map _
      rw [getElem?_concat, apply_ite (Option.map _)]
      exact ite_congr rfl (fun _ => rfl) fun _ => h.stored (.slot n)
    | version | aliases | view name =>
      change ((s.keys.insert (Key.sub item (.slot _)) _).insert (Key.sub item .version) _).stored? _ = _
      simp [KeySpace.stored?_insert, Key.sub_inj, h.stored, Ledger.stored]
  · rintro _ ⟨⟩
    exact ⟨by simpa using hslot, (h.fits l rfl).aliases⟩

/-- A new list of aliases. -/
theorem setAliases {xs : List ItemId} {v : Unit} (h : Image s.keys item (some l))
    (hrun : setList (Key.aliases item) xs s = .ok v t) : Image t.keys item (some ⟨l.slots, xs⟩) := by
  obtain ⟨bytes, hrecord, rfl⟩ := setList_eq_ok hrun
  refine ⟨fun k => ?_, ?_⟩
  · change (s.keys.insert (Key.sub item .aliases) _).stored? _ = _
    simp only [KeySpace.stored?_insert, Key.sub_inj, h.stored]
    cases k with
    | aliases => simp [Ledger.stored, hrecord, Except.toOption]
    | version | slot n | view name => simp [Ledger.stored]
  · rintro _ ⟨⟩
    exact ⟨(h.fits l rfl).slots, bytes, hrecord⟩

theorem link {v : Unit} (h : Image s.keys item (some l)) (hrun : link item x s = .ok v t) :
    Image t.keys item
      (some ⟨l.slots, if x ∈ l.aliases then l.aliases else l.aliases ++ [x]⟩) := by
  obtain ⟨-, xs, hlist, hset⟩ := link_eq_ok.mp hrun
  rw [h.aliasList, Except.ok.injEq] at hlist
  subst hlist
  refine setAliases (h.congr fun k => ?_) hset
  exact KeySpace.stored?_insert_of_ne _ _ (Key.pointer_ne_sub item x k)

theorem unlink {v : Unit} (h : Image s.keys item (some l)) (hrun : unlink item x s = .ok v t) :
    Image t.keys item (some ⟨l.slots, l.aliases.filter fun y => y ≠ x⟩) := by
  obtain ⟨xs, hlist, hset⟩ := unlink_eq_ok.mp hrun
  rw [h.aliasList, Except.ok.injEq] at hlist
  subst hlist
  refine setAliases (h.congr fun k => ?_) hset
  exact KeySpace.stored?_erase_of_ne _ (Key.pointer_ne_sub item x k)

/-- Nothing is left of the index. -/
theorem teardown {v : Unit} (h : Image s.keys item (some l)) (hrun : teardown item s = .ok v t) :
    Image t.keys item none := by
  obtain ⟨u, hteardown, hnone, -⟩ :=
    teardown_of_lists h.aliasList h.viewList (version?_of_version h.version)
  rw [hrun] at hteardown
  cases hteardown
  refine ⟨fun k => ?_, nofun⟩
  by_cases hk : Torn [] l.slots.length k
  · exact hnone k hk
  · refine (keeps_none_teardown _).of_ok ((h.stored k).trans ?_) hrun
    cases k with
    | version | aliases => exact absurd trivial hk
    | slot n => simpa [Ledger.stored, Torn] using hk
    | view name => simpa [Ledger.stored, Torn] using hk

end Image

end Item

/-! ## Events in a ledger -/

namespace Effect

/-- What becomes of a list of aliases. -/
def alter : Effect → List ItemId → List ItemId
  | link _ x, xs => if x ∈ xs then xs else xs ++ [x]
  | unlink _ x, xs => xs.filter fun y => y ≠ x
  | create _, xs | count _, xs | delete _, xs => xs

/-- An event sets an alias or removes it, whether it was there or not, or it leaves it alone. -/
theorem mem_alter (f : Effect) (x : ItemId) :
    (∀ xs ys, x ∈ f.alter xs ↔ x ∈ f.alter ys) ∨ ∀ xs, x ∈ f.alter xs ↔ x ∈ xs := by
  have hlink : ∀ (y : ItemId) (xs : List ItemId), x ∈ (if y ∈ xs then xs else xs ++ [y]) ↔
      x ∈ xs ∨ x = y := by
    intro y xs
    split_ifs with hy
    · exact ⟨.inl, fun h => h.elim id fun heq => heq ▸ hy⟩
    · simp
  cases f with
  | create a | count a | delete a => exact .inr fun xs => Iff.rfl
  | link a y =>
    by_cases hx : x = y
    · subst hx
      exact .inl fun xs ys => by simp only [alter, hlink, or_true]
    · exact .inr fun xs => by simp only [alter, hlink, hx, or_false]
  | unlink a y =>
    by_cases hx : x = y
    · exact .inl fun xs ys => by simp [alter, hx]
    · exact .inr fun xs => by simp [alter, hx]

/-- What becomes of the ledger of the item when the event takes a slot. -/
def enter (slot : UInt8 × EventId) : Effect → Option Ledger → Option Ledger
  | create _, _ => some ⟨[slot], []⟩
  | delete _, _ => none
  | f, found => found.map fun l => ⟨l.slots ++ [slot], f.alter l.aliases⟩

end Effect

namespace LogEvent

/-- What the slot of an event holds. -/
def slot (e : LogEvent) : UInt8 × EventId := (e.mark, e.id)

/-- What the takeover of a log entry makes of the ledger of its item. -/
def enter (found : Option Ledger) (e : LogEvent) : Option Ledger :=
  e.effect?.elim found fun f => f.enter e.slot found

/-- Whether the entry is an event of the item. -/
def isOf (item : ItemId) (e : LogEvent) : Bool := e.effect?.any fun f => f.item = item

theorem isOf_iff {e : LogEvent} {item : ItemId} :
    e.isOf item = true ↔ ∃ f, e.effect? = some f ∧ f.item = item := by
  simp [isOf, Option.any_eq_true]

/-- Whether the entry is an event that creates its item or deletes it. -/
def isReset (e : LogEvent) : Bool :=
  e.effect?.any fun f => f = .create f.item ∨ f = .delete f.item

end LogEvent

namespace Ledger

/-- The ledger that the events of one item make of what was there. -/
def replay (found : Option Ledger) (events : List LogEvent) : Option Ledger :=
  events.foldl LogEvent.enter found

/-- The aliases that the events of one item make of those that were there. -/
def realias (xs : List ItemId) (events : List LogEvent) : List ItemId :=
  events.foldl (fun xs e => e.effect?.elim xs fun f => f.alter xs) xs

variable {events : List LogEvent}

theorem replay_append (found : Option Ledger) (xs ys : List LogEvent) :
    replay found (xs ++ ys) = replay (replay found xs) ys := List.foldl_append

/-- From an event on that creates the item or deletes it, what was there before does not matter. -/
theorem replay_eq_of_reset (h : ∃ e ∈ events, e.isReset = true) (found other : Option Ledger) :
    replay found events = replay other events := by
  induction events generalizing found other with
  | nil => simp at h
  | cons e events ih =>
    by_cases hrest : ∃ e ∈ events, e.isReset = true
    · exact ih hrest _ _
    · have hreset : e.isReset = true := by simpa [hrest] using h
      have henter : e.enter found = e.enter other := by
        unfold LogEvent.isReset at hreset
        unfold LogEvent.enter
        cases heffect : e.effect? with
        | none => simp [heffect] at hreset
        | some f => cases f <;> simp_all [Effect.enter, Effect.item]
      rw [replay, List.foldl_cons, henter]
      rfl

/-- Events between add slots at the end. -/
theorem replay_of_not_reset {item : ItemId} (hof : ∀ e ∈ events, e.isOf item = true)
    (h : ∀ e ∈ events, e.isReset = false) (found : Option Ledger) : replay found events =
      found.map fun l => ⟨l.slots ++ events.map LogEvent.slot, realias l.aliases events⟩ := by
  induction events generalizing found with
  | nil => simp [replay, realias]
  | cons e events ih =>
    have henter : e.enter found = found.map fun l =>
        ⟨l.slots ++ [e.slot], e.effect?.elim l.aliases fun f => f.alter l.aliases⟩ := by
      have hself := hof e List.mem_cons_self
      have hreset := h e List.mem_cons_self
      unfold LogEvent.isOf at hself
      unfold LogEvent.isReset at hreset
      unfold LogEvent.enter
      cases heffect : e.effect? with
      | none => simp [heffect] at hself
      | some f => cases f <;> simp_all [Effect.enter, Effect.item]
    rw [replay, List.foldl_cons, henter, ← replay,
      ih (fun e he => hof e (List.mem_cons_of_mem _ he)) fun e he => h e (List.mem_cons_of_mem _ he)]
    cases found <;> simp [realias]

/-- The slots point at events that have been replayed, each at another one. -/
theorem slots_sublist {found : Option Ledger} {l : Ledger} (h : replay found events = some l) :
    l.slots.Sublist ((found.map Ledger.slots).getD [] ++ events.map LogEvent.slot) := by
  induction events generalizing found with
  | nil =>
    obtain rfl : found = some l := h
    simp
  | cons e events ih =>
    refine (ih h).trans ?_
    rw [List.map_cons, ← List.singleton_append (l := List.map _ _), ← List.append_assoc]
    refine List.Sublist.append_right ?_ _
    unfold LogEvent.enter
    cases e.effect? with
    | none => simp
    | some f => cases f <;> cases found <;> simp [Effect.enter]

/-- The same events once more make the same aliases, as far as membership goes: for an alias that
they set or remove only the last of them counts. -/
theorem mem_realias_twice {x : ItemId} {xs : List ItemId} :
    x ∈ realias (realias xs events) events ↔ x ∈ realias xs events := by
  have hcases : (∀ xs ys, x ∈ realias xs events ↔ x ∈ realias ys events) ∨
      ∀ xs, x ∈ realias xs events ↔ x ∈ xs := by
    induction events with
    | nil => exact .inr fun xs => Iff.rfl
    | cons e events ih =>
      rcases ih with ih | ih
      · exact .inl fun xs ys => ih _ _
      · have hfirst : ∀ xs, x ∈ realias xs (e :: events) ↔
            x ∈ e.effect?.elim xs fun f => f.alter xs := fun xs => ih _
        simp only [hfirst]
        rcases e.effect? with _ | f
        · exact .inr fun xs => Iff.rfl
        · exact Effect.mem_alter f x
  rcases hcases with h | h
  · exact h _ _
  · exact h _

end Ledger

namespace Item

variable {s t : Session} {item : ItemId} {found : Option Ledger} {e : LogEvent} {f : Effect}

/-- An event that takes a slot of an item that is there. -/
theorem Image.enter_some {slot : Nat} {v : Unit} (h : Image s.keys item found)
    (hversion : Item.version s.keys item = .ok slot) {u : Session}
    (hrecord : Item.recordSlot item slot e.id e.mark s = .ok v u) :
    ∃ l, found = some l ∧ Image u.keys item (some ⟨l.slots ++ [(e.mark, e.id)], l.aliases⟩) := by
  obtain ⟨l, rfl, rfl⟩ := h.exists_ledger hversion
  exact ⟨l, rfl, h.recordSlot hrecord⟩

/-- The takeover of an event of the item. Only an event of creation finds no index. -/
theorem Image.replicate {v : Unit} (h : Image s.keys f.item found)
    (hrun : Item.replicate e s = .ok v t) (heffect : e.effect? = some f) :
    Image t.keys f.item (e.enter found) ∧ (found = none → f = .create f.item) := by
  obtain ⟨s₁, slot, s₂, hstart, hversion, hrecord, hsettle⟩ :=
    (LogEvent.replicate_eq_ok heffect).mp hrun
  rw [LogEvent.enter, heffect, Option.elim_some]
  cases f with
  | create a =>
    obtain ⟨hthere, hinit⟩ := startIndex_created.mp hstart
    have hfound : Item.isThere s.keys a = .ok found.isSome := h.isThere
    rw [hthere, Except.ok.injEq] at hfound
    obtain rfl : found = none := by simpa using hfound.symm
    obtain ⟨l, hl, himage⟩ := (h.initIndex hinit).enter_some hversion hrecord
    cases hl
    obtain ⟨-, rfl⟩ := Txn.pure_eq_ok.mp hsettle
    exact ⟨himage, fun _ => rfl⟩
  | count a =>
    obtain ⟨-, rfl⟩ := Txn.pure_eq_ok.mp hstart
    obtain ⟨l, rfl, himage⟩ := h.enter_some hversion hrecord
    obtain ⟨-, rfl⟩ := Txn.pure_eq_ok.mp hsettle
    exact ⟨himage, nofun⟩
  | link a x =>
    obtain ⟨-, rfl⟩ := Txn.pure_eq_ok.mp hstart
    obtain ⟨l, rfl, himage⟩ := h.enter_some hversion hrecord
    exact ⟨himage.link hsettle, nofun⟩
  | unlink a x =>
    obtain ⟨-, rfl⟩ := Txn.pure_eq_ok.mp hstart
    obtain ⟨l, rfl, himage⟩ := h.enter_some hversion hrecord
    exact ⟨himage.unlink hsettle, nofun⟩
  | delete a =>
    obtain ⟨-, rfl⟩ := Txn.pure_eq_ok.mp hstart
    obtain ⟨l, rfl, himage⟩ := h.enter_some hversion hrecord
    exact ⟨himage.teardown hsettle, nofun⟩

/-- The takeover of an event of another item. -/
theorem replicate_frame {v : Unit} (hrun : Item.replicate e s = .ok v t)
    (heffect : e.effect? = some f) (hapart : f.item.Apart item) (k : SubKey) :
    t.keys.stored? (Key.sub item k) = s.keys.stored? (Key.sub item k) := by
  obtain ⟨event, s₁, slot, s₂, hevent, hstart, -, hrecord, hsettle⟩ := replicate_eq_ok.mp hrun
  obtain ⟨-, other, hother, hsome⟩ := LogEvent.effect?_eq_some heffect
  rw [hevent, Except.ok.injEq] at hother
  subst hother
  rw [(ItemEvent.effect?_eq_some hsome).1] at hapart
  let P : Bytes → Prop := (· ≠ Key.sub item k)
  have hsub : ∀ j, P (Key.sub event.item j) := fun j => hapart j k
  have hpointer : ∀ x, P (Key.pointer x) := fun x => Key.pointer_ne_sub item x k
  have hout : ¬ P (Key.sub item k) := fun hne => hne rfl
  rw [← ((local_settle hsub (fun _ x _ => hpointer x) fun _ => hpointer _).frame hsettle).1 _ hout,
    ← ((local_recordSlot hsub slot e.id e.mark).frame hrecord).1 _ hout,
    ← ((local_startIndex hsub event.event).frame hstart).1 _ hout]

/-- An event that can be taken over has an effect. -/
theorem exists_effect_of_replicate {v : Unit} (hkind : Kind.isItem e.mark = true)
    (hrun : Item.replicate e s = .ok v t) : ∃ f, e.effect? = some f := by
  obtain ⟨event, s₁, slot, s₂, hevent, -, -, -, hsettle⟩ := replicate_eq_ok.mp hrun
  rw [LogEvent.effect?, if_pos hkind, hevent]
  change ∃ f, event.effect? = some f
  unfold ItemEvent.effect?
  unfold settle at hsettle
  by_cases hcreated : event.event.isLifecycle .created = true
  · exact ⟨_, if_pos hcreated⟩
  rw [if_neg hcreated]
  by_cases hdeleted : event.event.isLifecycle .deleted = true
  · exact ⟨_, if_pos hdeleted⟩
  rw [if_neg hdeleted] at hsettle ⊢
  -- an alias that cannot be read would have stopped the takeover
  have htarget : ∀ {g : ItemId → Txn Unit}, (Txn.lift event.event.aliasTarget >>= g) s₂ = .ok v t →
      ∃ x, event.event.aliasTarget = .ok x := by
    intro g h
    obtain ⟨x, u, hlift, -⟩ := Txn.bind_eq_ok.mp h
    exact ⟨x, (Txn.lift_eq_ok.mp hlift).1⟩
  split_ifs at hsettle ⊢
  · obtain ⟨x, hx⟩ := htarget hsettle
    exact ⟨_, by rw [hx]; rfl⟩
  · obtain ⟨x, hx⟩ := htarget hsettle
    exact ⟨_, by rw [hx]; rfl⟩
  · exact ⟨_, rfl⟩

/-- The takeover of a list of events, of this item and of others. -/
theorem Image.replicates {events : List LogEvent} (h : Image s.keys item found)
    (hrun : events.forM Item.replicate s = .ok () t)
    (hkind : ∀ e ∈ events, Kind.isItem e.mark = true)
    (hitem : ∀ e ∈ events, ∀ f, e.effect? = some f → f.item = item ∨ f.item.Apart item) :
    Image t.keys item (Ledger.replay found (events.filter (·.isOf item))) ∧
      (found = none → events.filter (·.isOf item) = [] ∨
        ∃ e ∈ events, e.effect? = some (.create item)) := by
  induction events generalizing s found with
  | nil =>
    obtain ⟨-, rfl⟩ := Txn.pure_eq_ok.mp hrun
    exact ⟨h, fun _ => .inl rfl⟩
  | cons e events ih =>
    obtain ⟨_, u, hfirst, hrest⟩ := Txn.bind_eq_ok.mp hrun
    obtain ⟨f, heffect⟩ := exists_effect_of_replicate (hkind e List.mem_cons_self) hfirst
    have hkind' := fun other hother => hkind other (List.mem_cons_of_mem e hother)
    have hitem' := fun other hother => hitem other (List.mem_cons_of_mem e hother)
    by_cases heq : f.item = item
    · subst heq
      obtain ⟨himage, hcreate⟩ := h.replicate hfirst heffect
      have hof : e.isOf f.item = true := LogEvent.isOf_iff.mpr ⟨f, heffect, rfl⟩
      rw [List.filter_cons_of_pos hof]
      refine ⟨(ih himage hrest hkind' hitem').1, fun hnone => .inr ⟨e, List.mem_cons_self, ?_⟩⟩
      rw [heffect, ← hcreate hnone]
    · have hof : ¬ e.isOf item = true := by simp [LogEvent.isOf, heffect, heq]
      have hapart := (hitem e List.mem_cons_self f heffect).resolve_left heq
      have himage := h.congr (replicate_frame hfirst heffect hapart)
      obtain ⟨hreplay, hcreate⟩ := ih himage hrest hkind' hitem'
      rw [List.filter_cons_of_neg hof]
      refine ⟨hreplay, fun hnone => ?_⟩
      rcases hcreate hnone with hnil | ⟨other, hother, hsome⟩
      · exact .inl hnil
      · exact .inr ⟨other, List.mem_cons_of_mem e hother, hsome⟩

/-- A page that is applied. -/
theorem Image.apply {events : List LogEvent} {n : Nat} (h : Image s.keys item found)
    (hrun : s.update (Replication.apply events) = (.ok n, t))
    (hitem : ∀ e ∈ events, ∀ f, e.effect? = some f → f.item = item ∨ f.item.Apart item) :
    Image t.keys item (Ledger.replay found (events.filter (·.isOf item))) ∧
      (found = none → events.filter (·.isOf item) = [] ∨
        ∃ e ∈ events, e.effect? = some (.create item)) := by
  obtain ⟨-, hforM⟩ := Replication.apply_eq_ok.mp (Txn.update_eq_ok.mp hrun)
  have hlog : Image (s.keys.withLog events) item found :=
    h.congr (s.keys.stored?_withLog_sub events item)
  have hfilter : (events.filter fun e => Kind.isItem e.mark).filter (·.isOf item) =
      events.filter (·.isOf item) := by
    rw [List.filter_filter]
    refine List.filter_congr fun e _ => ?_
    cases hkind : Kind.isItem e.mark with
    | true => simp
    | false => simp [LogEvent.isOf, LogEvent.effect?, hkind]
  obtain ⟨himage, hcreate⟩ := hlog.replicates (s := { s with keys := s.keys.withLog events }) hforM
    (fun e he => (List.mem_filter.mp he).2) fun e he => hitem e (List.mem_of_mem_filter he)
  rw [hfilter] at himage hcreate
  refine ⟨himage, fun hnone => ?_⟩
  rcases hcreate hnone with hnil | ⟨e, he, hsome⟩
  · exact .inl hnil
  · exact .inr ⟨e, List.mem_of_mem_filter he, hsome⟩

end Item
end Chronicle
