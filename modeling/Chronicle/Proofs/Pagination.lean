import Mathlib
import Chronicle.Proofs.LogPages
import Chronicle.Proofs.Writes

/-!
# Reading page after page

A page is a front of the entries that one reading without a limit goes through, and the next page
takes up exactly what it leaves. So the pages of a log that does not change amount to the reading
without a limit. In a log that grows between the pages they miss nothing that was there at first
and repeat nothing.
-/
namespace Chronicle

namespace EventId

theorem not_before_self (id : EventId) : ¬ id.Before id := fun h => h.asymm h

theorem isLE_compare_log {a b : EventId} (h : ¬ b.Before a) :
    (compare (Key.log a) (Key.log b)).isLE = true := by
  rw [← compare_eq_gt_iff, ← compare_log] at h
  cases hcompare : compare (Key.log a) (Key.log b) with
  | lt => rfl
  | eq => rfl
  | gt => exact absurd hcompare h

theorem Before.trans_le {a b c : EventId} (hab : a.Before b) (hbc : ¬ c.Before b) : a.Before c := by
  rw [Before, ← compare_log] at hab ⊢
  exact Std.TransCmp.lt_of_lt_of_isLE hab (isLE_compare_log hbc)

theorem Before.le_trans {a b c : EventId} (hab : ¬ b.Before a) (hbc : b.Before c) : a.Before c := by
  rw [Before, ← compare_log] at hbc ⊢
  exact Std.TransCmp.lt_of_isLE_of_lt (isLE_compare_log hab) hbc

end EventId

namespace Log

variable {σ : Type} {keys : KeySpace} {first last : EventId} {size : Nat}

/-! ## Well-formed logs -/

/-- Every key of the log names an event. What is stored under it may be damaged. -/
def WellFormed (keys : KeySpace) : Prop :=
  ∀ key stored, keys.stored? key = some stored → key.head? = some Key.logTag →
    ∃ id, key = Key.log id

/-- The number of events that the log holds, over all partitions. -/
def eventCount (keys : KeySpace) : Nat :=
  keys.toList.countP fun entry => entry.1.head? = some Key.logTag

/-- The entry of an identity. -/
def atKey (e : EventId × Bytes) : Bytes × Bytes := (Key.log e.1, e.2)

/-- The entries that a reading goes through which starts at `first`. -/
def Entries (keys : KeySpace) (first : EventId) (entries : List (EventId × Bytes)) : Prop :=
  keys.scan (Key.log first) (Key.partition first.partition) = entries.map atKey

theorem head?_of_stem {p : UInt8} {key : Bytes} (h : Key.partition p <+: key) :
    key.head? = some Key.logTag := by
  obtain ⟨rest, rfl⟩ := h
  rfl

theorem WellFormed.exists_entries (h : WellFormed keys) (first : EventId) :
    ∃ entries, Entries keys first entries := by
  have hrange : ∀ entry ∈ keys.scan (Key.log first) (Key.partition first.partition),
      entry ∈ Set.range atKey := by
    rintro ⟨key, stored⟩ hentry
    rw [KeySpace.mem_scan (Key.partition_prefix_log.mpr rfl)] at hentry
    obtain ⟨id, rfl⟩ := h key stored hentry.1 (head?_of_stem hentry.2.2)
    exact ⟨(id, stored), rfl⟩
  obtain ⟨entries, hentries⟩ := (Set.ext_iff.mp (Set.range_list_map atKey) _).mpr hrange
  exact ⟨entries, hentries.symm⟩

namespace Entries

variable {entries : List (EventId × Bytes)}

theorem mem (h : Entries keys first entries) {id : EventId} {stored : Bytes} :
    (id, stored) ∈ entries ↔ keys.stored? (Key.log id) = some stored ∧ ¬ id.Before first ∧
      id.partition = first.partition := by
  have hmap : (id, stored) ∈ entries ↔ (Key.log id, stored) ∈ entries.map atKey := by
    simp [atKey]
  rw [hmap, ← h, KeySpace.mem_scan (Key.partition_prefix_log.mpr rfl), EventId.compare_log, ne_eq,
    EventId.compare_eq_gt_iff, Key.partition_prefix_log]

theorem sorted (h : Entries keys first entries) :
    entries.Pairwise fun a b => a.1.Before b.1 := by
  have hordered := keys.ordered_scan (Key.log first) (Key.partition first.partition)
  rw [h, KeySpace.Ordered, List.pairwise_map] at hordered
  exact hordered.imp fun hab => (EventId.compare_log _ _).symm.trans hab

theorem ordered_map (h : entries.Pairwise fun a b => a.1.Before b.1) :
    KeySpace.Ordered (entries.map atKey) :=
  List.pairwise_map.mpr (h.imp fun hab => (EventId.compare_log _ _).trans hab)

/-- What a page leaves is what a reading goes through that starts there. -/
theorem tail (hkeys : WellFormed keys) {front rest : List (EventId × Bytes)} {id : EventId}
    {stored : Bytes} (h : Entries keys first (front ++ (id, stored) :: rest)) :
    Entries keys id ((id, stored) :: rest) := by
  obtain ⟨-, hid, hpartition⟩ := h.mem.mp (List.mem_append_right front List.mem_cons_self)
  obtain ⟨-, hsorted, hfront⟩ := List.pairwise_append.mp h.sorted
  obtain ⟨entries, hentries⟩ := hkeys.exists_entries id
  have hmem : ∀ e, e ∈ entries ↔ e ∈ (id, stored) :: rest := by
    rintro ⟨other, found⟩
    rw [hentries.mem, hpartition]
    constructor
    · rintro ⟨hfound, hge, hother⟩
      have hfirst : ¬ other.Before first := fun hlt => hge (hlt.trans_le hid)
      rcases List.mem_append.mp (h.mem.mpr ⟨hfound, hfirst, hother⟩) with hin | hin
      · exact absurd (hfront _ hin _ List.mem_cons_self) hge
      · exact hin
    · intro hin
      obtain ⟨hfound, -, hother⟩ := h.mem.mp (List.mem_append_right front hin)
      refine ⟨hfound, ?_, hother⟩
      rcases List.mem_cons.mp hin with heq | hin
      · cases heq
        exact EventId.not_before_self _
      · exact ((List.pairwise_cons.mp hsorted).1 _ hin).asymm
  rw [Entries, hentries]
  refine (ordered_map hentries.sorted).eq_of_mem_iff (ordered_map hsorted) fun entry => ?_
  simp only [List.mem_map, hmem]

theorem length_le (h : Entries keys first entries) : entries.length ≤ eventCount keys := by
  have hsublist : (keys.scan (Key.log first) (Key.partition first.partition)).Sublist keys.toList :=
    (List.takeWhile_sublist _).trans List.filter_sublist
  have hcount := hsublist.countP_le (p := fun entry => entry.1.head? = some Key.logTag)
  rw [h, List.countP_eq_length.mpr, List.length_map] at hcount
  · exact hcount
  · intro entry hentry
    obtain ⟨e, -, rfl⟩ := List.mem_map.mp hentry
    rfl

end Entries

/-! ## One page -/

/-- Folds entries up to `last`, however many they are. An entry that cannot be read is a fault
even where it lies behind `last`. -/
def foldAll (last : EventId) (f : σ → LogEvent → Outcome σ) :
    List (EventId × Bytes) → σ → Outcome σ
  | [], state => .ok state
  | (id, stored) :: rest, state => do
    let entry ← Entry.ofStored (Key.log id) stored
    if compare id last = .gt then return state
    else foldAll last f rest (← f state ⟨entry.mark, id, entry.value⟩)

variable {f : σ → LogEvent → Outcome σ} {entries : List (EventId × Bytes)}

theorem foldAll_append {front rest : List (EventId × Bytes)}
    (hfront : ∀ e ∈ front, ¬ last.Before e.1) (state : σ) :
    foldAll last f (front ++ rest) state = foldAll last f front state >>= foldAll last f rest := by
  induction front generalizing state with
  | nil => rfl
  | cons e front ih =>
    have hlast : ¬ compare e.1 last = .gt :=
      EventId.compare_eq_gt_iff.not.mpr (hfront e List.mem_cons_self)
    simp [foldAll, hlast, ih fun e he => hfront e (List.mem_cons_of_mem _ he)]

/-- Folds as many entries as there is room for, and names the next one. -/
def foldPage (last : EventId) (f : σ → LogEvent → Outcome σ) :
    Nat → List (EventId × Bytes) → σ → Outcome (Page σ)
  | _, [], state => .ok ⟨state, none⟩
  | room, (id, stored) :: rest, state => do
    let entry ← Entry.ofStored (Key.log id) stored
    if compare id last = .gt then return ⟨state, none⟩
    else
      match room with
      | 0 => return ⟨state, some id⟩
      | room + 1 => foldPage last f room rest (← f state ⟨entry.mark, id, entry.value⟩)

theorem visitAll_eq_foldPage {room folded : Nat} (hroom : room + folded = size) (init : σ) :
    (fun s => ⟨s.state, s.next⟩) <$>
        KeySpace.visitAll (foldEntry last size f) (entries.map atKey) ⟨init, folded, none⟩ =
      foldPage last f room entries init := by
  induction entries generalizing init room folded with
  | nil => simp [KeySpace.visitAll, foldPage, Functor.map, Except.map]
  | cons e entries ih =>
    obtain ⟨id, stored⟩ := e
    rw [List.map_cons, atKey, KeySpace.visitAll, foldPage]
    cases hread : Entry.ofStored (Key.log id) stored with
    | error fault => rfl
    | ok entry =>
      by_cases hlast : compare id last = .gt
      · simp [foldEntry, EventId.decode_log, hlast, bind, Except.bind, pure, Except.pure]
      cases room with
      | zero =>
        have hfull : size ≤ folded := by omega
        simp [foldEntry, EventId.decode_log, hlast, hfull, bind, Except.bind, pure, Except.pure]
      | succ room =>
        have hspace : ¬ size ≤ folded := by omega
        have hrest : room + (folded + 1) = size := by omega
        cases hstep : f init ⟨entry.mark, id, entry.value⟩ with
        | error fault =>
          simp [foldEntry, EventId.decode_log, hlast, hspace, hstep, bind, Except.bind]
        | ok state =>
          simp [foldEntry, EventId.decode_log, hlast, hspace, hstep, bind, Except.bind, pure,
            Except.pure, ih hrest state]

theorem Entries.fold_eq (h : Entries keys first entries) (hsize : 0 < size) (init : σ) :
    fold keys first last size init f = foldPage last f size entries init := by
  rw [fold, if_neg hsize.ne', KeySpace.fold_eq_visitAll, h,
    ← visitAll_eq_foldPage (Nat.add_zero size) init]
  cases KeySpace.visitAll (foldEntry last size f) (entries.map atKey) ⟨init, 0, none⟩ <;> rfl

/-- What can come of a page with room for `count` of the entries: a fold of all of them, or of as
many as there is room for, with the next one named. -/
def Cut (last : EventId) (f : σ → LogEvent → Outcome σ) (count : Nat)
    (entries : List (EventId × Bytes)) (init : σ) : Outcome (Page σ) → Prop
  | .error fault => foldAll last f entries init = .error fault
  | .ok ⟨state, none⟩ => foldAll last f entries init = .ok state
  | .ok ⟨state, some id⟩ => ∃ front stored rest, entries = front ++ (id, stored) :: rest ∧
      front.length = count ∧ (∀ e ∈ front, ¬ last.Before e.1) ∧ ¬ last.Before id ∧
      foldAll last f front init = .ok state

theorem Cut.cons {count : Nat} {e : EventId × Bytes} {entry : Entry} {init state : σ}
    {page : Outcome (Page σ)} (hread : Entry.ofStored (Key.log e.1) e.2 = .ok entry)
    (hlast : ¬ compare e.1 last = .gt) (hstep : f init ⟨entry.mark, e.1, entry.value⟩ = .ok state)
    (h : Cut last f count entries state page) : Cut last f (count + 1) (e :: entries) init page := by
  have hall : ∀ rest, foldAll last f (e :: rest) init = foldAll last f rest state := by
    intro rest
    rw [foldAll, hread]
    simp [hlast, hstep, bind, Except.bind]
  match page, h with
  | .error fault, h => exact (hall entries).trans h
  | .ok ⟨result, none⟩, h => exact (hall entries).trans h
  | .ok ⟨result, some id⟩, ⟨front, stored, rest, hentries, hcount, hfront, hid, hresult⟩ =>
    refine ⟨e :: front, stored, rest, by rw [hentries]; rfl, by simp [hcount], ?_, hid,
      (hall front).trans hresult⟩
    exact List.forall_mem_cons.mpr ⟨EventId.compare_eq_gt_iff.not.mp hlast, hfront⟩

theorem cut_foldPage (last : EventId) (f : σ → LogEvent → Outcome σ) (count : Nat)
    (entries : List (EventId × Bytes)) (init : σ) :
    Cut last f count entries init (foldPage last f count entries init) := by
  induction entries generalizing count init with
  | nil => simp [foldPage, Cut, foldAll]
  | cons e entries ih =>
    rw [foldPage]
    cases hread : Entry.ofStored (Key.log e.1) e.2 with
    | error fault => simp [Cut, foldAll, hread, bind, Except.bind]
    | ok entry =>
      by_cases hlast : compare e.1 last = .gt
      · simp [Cut, foldAll, hread, hlast, bind, Except.bind, pure, Except.pure]
      cases count with
      | zero =>
        simp only [bind, Except.bind, if_neg hlast]
        exact ⟨[], e.2, entries, rfl, rfl, nofun, EventId.compare_eq_gt_iff.not.mp hlast, rfl⟩
      | succ count =>
        cases hstep : f init ⟨entry.mark, e.1, entry.value⟩ with
        | error fault => simp [Cut, foldAll, hread, hlast, hstep, bind, Except.bind]
        | ok state =>
          simp only [bind, Except.bind, if_neg hlast, hstep]
          exact (ih count state).cons hread hlast hstep

/-! ## Pages of a log that does not change -/

/-- Reads page after page, `count` of them at most, each one with the state that the one before
it has left. -/
def foldPages (keys : KeySpace) (last : EventId) (size : Nat) (f : σ → LogEvent → Outcome σ) :
    Nat → EventId → σ → Outcome (Page σ)
  | 0, first, state => .ok ⟨state, some first⟩
  | count + 1, first, state => do
    let page ← fold keys first last size state f
    match page.next with
    | none => return page
    | some next => foldPages keys last size f count next page.events

theorem Entries.fold_eq_foldAll (h : Entries keys first entries) (hsize : 0 < size)
    (hlength : entries.length ≤ size) (init : σ) :
    fold keys first last size init f = (⟨·, none⟩) <$> foldAll last f entries init := by
  have hcut := cut_foldPage last f size entries init
  rw [← h.fold_eq hsize] at hcut
  match fold keys first last size init f, hcut with
  | .error fault, hcut => rw [hcut]; rfl
  | .ok ⟨state, none⟩, hcut => rw [hcut]; rfl
  | .ok ⟨state, some id⟩, ⟨front, stored, rest, hentries, hcount, _⟩ =>
    simp [hentries] at hlength
    omega

theorem Entries.foldPages_eq (hkeys : WellFormed keys) (h : Entries keys first entries)
    (hsize : 0 < size) {count : Nat} (hcount : entries.length < count) (init : σ) :
    foldPages keys last size f count first init = (⟨·, none⟩) <$> foldAll last f entries init := by
  induction count generalizing first entries init with
  | zero => exact absurd hcount (Nat.not_lt_zero _)
  | succ count ih =>
    have hcut := cut_foldPage last f size entries init
    rw [← h.fold_eq hsize] at hcut
    rw [foldPages]
    match fold keys first last size init f, hcut with
    | .error fault, hcut => rw [hcut]; rfl
    | .ok ⟨state, none⟩, hcut => rw [hcut]; rfl
    | .ok ⟨state, some id⟩, ⟨front, stored, rest, hentries, hfull, hfront, _, hstate⟩ =>
      subst hentries
      have hlength : ((id, stored) :: rest).length < count := by
        simp at hcount ⊢
        omega
      rw [foldAll_append hfront, hstate]
      exact ih (h.tail hkeys) hlength state

/-! ## Pages of a log that grows -/

/-- The log has taken up more events, perhaps, and has lost or overwritten none. What else the store
holds may have changed in any way. -/
structure Grows (keys keys' : KeySpace) : Prop where
  kept : ∀ {id stored}, keys.stored? (Key.log id) = some stored →
    keys'.stored? (Key.log id) = some stored
  wellFormed : WellFormed keys → WellFormed keys'

theorem Grows.refl (keys : KeySpace) : Grows keys keys := ⟨fun h => h, fun h => h⟩

theorem Grows.trans {a b c : KeySpace} (hab : Grows a b) (hbc : Grows b c) : Grows a c :=
  ⟨fun h => hbc.kept (hab.kept h), fun h => hbc.wellFormed (hab.wellFormed h)⟩

theorem wellFormed_insert {key : Bytes} (stored : Bytes) (h : WellFormed keys)
    (hkey : key.head? = some Key.logTag → ∃ id, key = Key.log id) :
    WellFormed (keys.insert key stored) := by
  intro other found hfound hhead
  rw [KeySpace.stored?_insert] at hfound
  split_ifs at hfound with heq
  · exact heq ▸ hkey (heq ▸ hhead)
  · exact h other found hfound hhead

theorem wellFormed_write {F : Bytes → Prop} {s t : Session} (h : s.Write F t)
    (hs : WellFormed s.keys) : WellFormed t.keys := by
  cases h with
  | tick => exact hs
  | log stored _ _ => exact wellFormed_insert _ hs fun _ => ⟨_, rfl⟩
  | slot => exact wellFormed_insert _ hs fun h => absurd h (Key.head?_index_ne _ _ _)
  | value => exact wellFormed_insert _ hs fun h => absurd h (Key.head?_index_ne _ _ _)
  | point => exact wellFormed_insert _ hs fun h => absurd h (Key.head?_pointer_ne _)
  | @erase key =>
    intro other found hfound hhead
    rw [KeySpace.stored?_erase] at hfound
    split_ifs at hfound
    exact hs other found hfound hhead

theorem grows_of_writes {F : Bytes → Prop} {s t : Session} (h : s.Writes F t) :
    Grows s.keys t.keys := by
  refine ⟨h.within.log, fun hs => ?_⟩
  induction h with
  | refl => exact hs
  | tail _ hwrite ih => exact wellFormed_write hwrite ih

/-- An append at any timestamp, also one that fails, overwrites nothing. -/
theorem grows_putAt (p : UInt8) (timestamp : UInt64) (event : LogEvent) (s : Session) :
    Grows s.keys ((putAt p timestamp event).leaves s).keys :=
  grows_of_writes (Txn.Keeps.writes_leaves (F := fun _ => True)
    (writes_putAt _ _ _ fun _ => trivial) s)

/-- The log holds the event. -/
def Has (keys : KeySpace) (e : LogEvent) : Prop :=
  keys.stored? (Key.log e.id) = some (e.mark :: e.payload)

/-- The events are those from `first` to the place where the next page starts, or to `last` where
no page is next; as far as the store `start` has had them. -/
structure Covers (start : KeySpace) (first last : EventId) (page : Page (List LogEvent)) :
    Prop where
  ascending : page.events.Pairwise fun a b => a.id.Before b.id
  not_before : ∀ e ∈ page.events, ¬ e.id.Before first
  cursor : ∀ id, page.next = some id → id.partition = first.partition ∧ ¬ id.Before first ∧
    ∀ e ∈ page.events, e.id.Before id
  complete : ∀ e, Has start e → e.id.partition = first.partition → ¬ e.id.Before first →
    ¬ last.Before e.id → (∀ id, page.next = some id → e.id.Before id) → e ∈ page.events

/-- An event as an entry under its identity. -/
def identified (e : LogEvent) : EventId × Bytes := (e.id, e.mark :: e.payload)

theorem foldAll_collect {f : List LogEvent → LogEvent → Outcome (List LogEvent)}
    (hf : ∀ found e, f found e = .ok (e :: found))
    (hsorted : entries.Pairwise fun a b => a.1.Before b.1) {found result : List LogEvent}
    (h : foldAll last f entries found = .ok result) :
    ∃ (events : List LogEvent) (rest : List (EventId × Bytes)), result = events.reverse ++ found ∧
      entries = events.map identified ++ rest ∧ ∀ e ∈ rest, last.Before e.1 := by
  induction entries generalizing found with
  | nil =>
    cases h
    exact ⟨[], [], rfl, rfl, nofun⟩
  | cons e entries ih =>
    obtain ⟨id, stored⟩ := e
    obtain ⟨hid, hentries⟩ := List.pairwise_cons.mp hsorted
    cases stored with
    | nil => simp [foldAll, Entry.ofStored, bind, Except.bind] at h
    | cons mark payload =>
      by_cases hlast : compare id last = .gt
      · simp [foldAll, Entry.ofStored, hlast, bind, Except.bind, pure, Except.pure] at h
        rw [EventId.compare_eq_gt_iff] at hlast
        exact ⟨[], _, h.symm, rfl,
          List.forall_mem_cons.mpr ⟨hlast, fun e he => hlast.trans (hid e he)⟩⟩
      · simp [foldAll, Entry.ofStored, hlast, hf, bind, Except.bind] at h
        obtain ⟨events, rest, rfl, rfl, hrest⟩ := ih hentries h
        exact ⟨⟨mark, id, payload⟩ :: events, rest, by simp, rfl, hrest⟩

theorem mem_map_identified {events : List LogEvent} {e : LogEvent} :
    identified e ∈ events.map identified ↔ e ∈ events := by
  refine List.mem_map_of_injective fun a b h => ?_
  cases a
  cases b
  cases h
  rfl

theorem range_eq_map (keys : KeySpace) (first last : EventId) (size : Nat) :
    range keys first last size = (fun p => ⟨p.events.reverse, p.next⟩) <$>
      fold keys first last size [] fun found e => .ok (e :: found) := rfl

/-- A page of the range has a front of the entries: all up to `last`, or as many as there is room
for. -/
theorem Entries.range_eq_ok (h : Entries keys first entries) (hsize : 0 < size)
    {page : Page (List LogEvent)} (hrange : range keys first last size = .ok page) :
    match page.next with
    | none => ∃ rest, entries = page.events.map identified ++ rest ∧ ∀ e ∈ rest, last.Before e.1
    | some id => ∃ stored rest, entries = page.events.map identified ++ (id, stored) :: rest ∧
        page.events.length = size := by
  rw [range_eq_map, h.fold_eq hsize] at hrange
  have hcut := cut_foldPage last (fun found e => .ok (e :: found)) size entries []
  match foldPage last (fun found e => .ok (e :: found)) size entries [], hcut, hrange with
  | .ok ⟨state, none⟩, hcut, hrange =>
    obtain ⟨events, rest, rfl, hentries, hrest⟩ := foldAll_collect (fun _ _ => rfl) h.sorted hcut
    cases hrange
    exact ⟨rest, by simpa using hentries, hrest⟩
  | .ok ⟨state, some id⟩, ⟨front, stored, rest, hentries, hfull, hfront, _, hstate⟩, hrange =>
    have hsorted := h.sorted
    rw [hentries, List.pairwise_append] at hsorted
    obtain ⟨events, behind, rfl, hevents, hbehind⟩ :=
      foldAll_collect (fun _ _ => rfl) hsorted.1 hstate
    have hnil : behind = [] := by
      refine List.eq_nil_iff_forall_not_mem.mpr fun e he => ?_
      exact hfront e (hevents ▸ List.mem_append_right _ he) (hbehind e he)
    cases hrange
    subst hnil hevents
    exact ⟨stored, rest, by simpa using hentries, by simpa using hfull⟩

theorem covers_range (hkeys : WellFormed keys) (hsize : 0 < size) {page : Page (List LogEvent)}
    (hrange : range keys first last size = .ok page) : Covers keys first last page := by
  obtain ⟨entries, h⟩ := hkeys.exists_entries first
  have hpage := h.range_eq_ok hsize hrange
  have hsorted := h.sorted
  obtain ⟨events, _ | id⟩ := page
  · obtain ⟨rest, rfl, hrest⟩ := hpage
    rw [List.pairwise_append, List.pairwise_map] at hsorted
    refine ⟨hsorted.1, fun e he => ?_, nofun, fun e hhas hpartition hfirst hlast _ => ?_⟩
    · exact (h.mem.mp (List.mem_append_left _ (mem_map_identified.mpr he))).2.1
    · rcases List.mem_append.mp (h.mem.mpr ⟨hhas, hfirst, hpartition⟩) with hin | hin
      · exact mem_map_identified.mp hin
      · exact absurd (hrest _ hin) hlast
  · obtain ⟨stored, rest, rfl, -⟩ := hpage
    rw [List.pairwise_append, List.pairwise_map, List.pairwise_cons] at hsorted
    obtain ⟨hevents, ⟨hrest, -⟩, hacross⟩ := hsorted
    refine ⟨hevents, fun e he => ?_, ?_, fun e hhas hpartition hfirst _ hbefore => ?_⟩
    · exact (h.mem.mp (List.mem_append_left _ (mem_map_identified.mpr he))).2.1
    · rintro _ ⟨⟩
      obtain ⟨-, hfirst, hpartition⟩ := h.mem.mp (List.mem_append_right _ List.mem_cons_self)
      exact ⟨hpartition, hfirst,
        fun e he => hacross _ (mem_map_identified.mpr he) _ List.mem_cons_self⟩
    · have hid := hbefore id rfl
      rcases List.mem_append.mp (h.mem.mpr ⟨hhas, hfirst, hpartition⟩) with hin | hin
      · exact mem_map_identified.mp hin
      · rcases List.mem_cons.mp hin with heq | hin
        · cases heq
          exact absurd hid (EventId.not_before_self _)
        · exact absurd hid (hrest _ hin).asymm

/-- A page that names a next one has an event, and the next one starts behind it. -/
theorem before_next (hkeys : WellFormed keys) (hsize : 0 < size) {page : Page (List LogEvent)}
    (hrange : range keys first last size = .ok page) {id : EventId} (hid : page.next = some id) :
    first.Before id := by
  obtain ⟨entries, h⟩ := hkeys.exists_entries first
  have hpage := h.range_eq_ok hsize hrange
  have hcovers := covers_range hkeys hsize hrange
  rw [hid] at hpage
  obtain ⟨-, -, -, hlength⟩ := hpage
  obtain ⟨e, he⟩ := List.exists_mem_of_length_pos (hsize.trans_eq hlength.symm)
  exact EventId.Before.le_trans (hcovers.not_before e he) ((hcovers.cursor id hid).2.2 e he)

/-- The page that comes after, read when the log may have grown. -/
theorem Covers.append {start : KeySpace} {events : List LogEvent} {id : EventId}
    {page : Page (List LogEvent)} (h : Covers start first last ⟨events, some id⟩)
    (hpage : Covers keys id last page) (hkept : ∀ e, Has start e → Has keys e) :
    Covers start first last ⟨events ++ page.events, page.next⟩ := by
  obtain ⟨hpartition, hid, hevents⟩ := h.cursor id rfl
  have hacross : ∀ a ∈ events, ∀ b ∈ page.events, a.id.Before b.id :=
    fun a ha b hb => (hevents a ha).trans_le (hpage.not_before b hb)
  refine ⟨?_, fun e he hlt => ?_, fun next hnext => ?_, fun e hhas hsame hfirst hlast hbefore => ?_⟩
  · exact List.pairwise_append.mpr ⟨h.ascending, hpage.ascending, hacross⟩
  · rcases List.mem_append.mp he with he | he
    · exact h.not_before e he hlt
    · exact hpage.not_before e he (hlt.trans_le hid)
  · obtain ⟨hsame, hle, hmore⟩ := hpage.cursor next hnext
    refine ⟨hsame.trans hpartition, fun hlt => hle (hlt.trans_le hid), fun e he => ?_⟩
    rcases List.mem_append.mp he with he | he
    · exact (hevents e he).trans_le hle
    · exact hmore e he
  · by_cases hread : e.id.Before id
    · exact List.mem_append_left _ (h.complete e hhas hsame hfirst hlast fun _ heq =>
        Option.some.inj heq ▸ hread)
    · exact List.mem_append_right _ (hpage.complete e (hkept e hhas) (hsame.trans hpartition.symm)
        hread hlast hbefore)

/-- A reading of the events up to `last`, page after page, of a log that grows meanwhile. It began
with the store `start` at `first`; now the store is the last one given, and the page holds what has
been read and where to go on. -/
inductive Reading (first last : EventId) (size : Nat) (start : KeySpace) :
    KeySpace → Page (List LogEvent) → Prop
  | begin {page : Page (List LogEvent)} (hrange : range start first last size = .ok page) :
      Reading first last size start start page
  | grow {keys keys' : KeySpace} {page : Page (List LogEvent)}
      (h : Reading first last size start keys page) (hgrows : Grows keys keys') :
      Reading first last size start keys' page
  | next {keys : KeySpace} {events : List LogEvent} {id : EventId} {page : Page (List LogEvent)}
      (h : Reading first last size start keys ⟨events, some id⟩)
      (hrange : range keys id last size = .ok page) :
      Reading first last size start keys ⟨events ++ page.events, page.next⟩

theorem Reading.grows {start : KeySpace} {page : Page (List LogEvent)}
    (h : Reading first last size start keys page) : Grows start keys := by
  induction h with
  | begin hrange => exact .refl start
  | grow _ hgrows ih => exact ih.trans hgrows
  | next _ _ ih => exact ih

theorem Reading.covers {start : KeySpace} {page : Page (List LogEvent)}
    (h : Reading first last size start keys page) (hstart : WellFormed start) (hsize : 0 < size) :
    Covers start first last page := by
  induction h with
  | begin hrange => exact covers_range hstart hsize hrange
  | grow _ _ ih => exact ih
  | next h hrange ih =>
    exact ih.append (covers_range (h.grows.wellFormed hstart) hsize hrange) fun _ => h.grows.kept

/-- Pages of any size, read one after the other, end after finitely many, and a fold over them is
the fold over a single page that has room for the whole log, faults included. If the log grows
between the pages, each page that names a next one still gets on, the events stand in order and
without a repetition, and at the end none is missing that the log had at the start. -/
theorem pages_without_gaps (first last : EventId) {size : Nat} (hsize : 0 < size) :
    (∀ {σ : Type} (keys : KeySpace) (f : σ → LogEvent → Outcome σ) (init : σ) (all count : Nat),
      WellFormed keys → 0 < all → eventCount keys ≤ all → eventCount keys < count →
      foldPages keys last size f count first init = fold keys first last all init f ∧
        ∀ page, fold keys first last all init f = .ok page → page.next = none) ∧
    ∀ (start keys : KeySpace) (page : Page (List LogEvent)), WellFormed start →
      Reading first last size start keys page →
      (∀ (id next : EventId) (more : Page (List LogEvent)), range keys id last size = .ok more →
        more.next = some next → id.Before next) ∧
      page.events.Pairwise (fun a b => a.id.Before b.id) ∧
      (page.next = none → ∀ e, Has start e → e.id.partition = first.partition →
        ¬ e.id.Before first → ¬ last.Before e.id → e ∈ page.events) := by
  constructor
  · intro σ keys f init all count hkeys hall hlength hcount
    obtain ⟨entries, h⟩ := hkeys.exists_entries first
    rw [h.foldPages_eq hkeys hsize (h.length_le.trans_lt hcount),
      h.fold_eq_foldAll hall (h.length_le.trans hlength)]
    refine ⟨rfl, fun page hpage => ?_⟩
    obtain ⟨state, -, rfl⟩ := Outcome.map_eq_ok.mp hpage
    rfl
  · intro start keys page hstart h
    have hcovers := h.covers hstart hsize
    refine ⟨fun id next more hrange hnext => ?_, hcovers.ascending, fun hnone e hhas hpartition
      hfirst hlast => ?_⟩
    · exact before_next (h.grows.wellFormed hstart) hsize hrange hnext
    · exact hcovers.complete e hhas hpartition hfirst hlast (by simp [hnone])

theorem wellFormed_empty : WellFormed .empty := by
  intro key stored h
  rw [KeySpace.stored?_empty] at h
  cases h

namespace Pagination

/-- What the log of one partition is after appends at these timestamps. -/
def appended (timestamps : List UInt64) (keys : KeySpace) : KeySpace :=
  timestamps.foldl (fun keys timestamp =>
    ((putAt 1 timestamp (.new Kind.entity [timestamp.toUInt8])).leaves ⟨keys, .steady 0 1⟩).keys) keys

theorem grows_appended (timestamps : List UInt64) (keys : KeySpace) :
    Grows keys (appended timestamps keys) := by
  induction timestamps generalizing keys with
  | nil => exact .refl keys
  | cons timestamp timestamps ih => exact (grows_putAt _ _ _ ⟨keys, .steady 0 1⟩).trans (ih _)

def event (timestamp : UInt64) (index : UInt16) : LogEvent :=
  ⟨Kind.entity, ⟨1, timestamp, index⟩, [timestamp.toUInt8]⟩

end Pagination

theorem fold_eq_of_scan {f : σ → LogEvent → Outcome σ} {init : σ} {page : Page σ}
    (h : (if size = 0 then none else (KeySpace.visitAll (foldEntry last size f)
      (keys.scan (Key.log first) (Key.partition first.partition)) ⟨init, 0, none⟩).toOption.map
        fun s => (⟨s.state, s.next⟩ : Page σ)) = some page) :
    fold keys first last size init f = .ok page := by
  rw [fold, KeySpace.fold_eq_visitAll]
  split_ifs at h ⊢
  obtain ⟨s, hvisit, rfl⟩ := Option.map_eq_some_iff.mp h
  exact Outcome.bind_eq_ok.mpr ⟨s, Outcome.eq_ok_of_toOption hvisit, rfl⟩

theorem range_of_scan {events : List LogEvent} {next : Option EventId}
    (h : (if size = 0 then none else (KeySpace.visitAll
      (foldEntry last size fun found e => .ok (e :: found))
      (keys.scan (Key.log first) (Key.partition first.partition)) ⟨[], 0, none⟩).toOption.map
        fun s => (⟨s.state, s.next⟩ : Page (List LogEvent))) = some ⟨events.reverse, next⟩) :
    range keys first last size = .ok ⟨events, next⟩ := by
  rw [range_eq_map, fold_eq_of_scan h]
  simp [Functor.map, Except.map]

open Pagination in
/-- Pages of one event of a log with three, two of them in one nanosecond. After the first page an
event has been appended before the cursor, another one behind it. -/
theorem pages_without_gaps_while_growing :
    foldPages (appended [7, 7, 9] .empty) (.last 1) 1 (fun n _ => .ok (n + 1)) 4 (.first 1) 0 =
        .ok ⟨3, none⟩ ∧
      Reading (.first 1) (.last 1) 1 (appended [7, 7, 9] .empty)
        (appended [5, 8] (appended [7, 7, 9] .empty))
        ⟨[event 7 0, event 7 1, event 8 0, event 9 0], none⟩ ∧
      [event 7 0, event 7 1, event 8 0, event 9 0].Pairwise (fun a b => a.id.Before b.id) ∧
      ∀ e, Has (appended [7, 7, 9] .empty) e → e.id.partition = 1 →
        e ∈ [event 7 0, event 7 1, event 8 0, event 9 0] := by
  have hkeys := (grows_appended [7, 7, 9] .empty).wellFormed wellFormed_empty
  obtain ⟨hpages, hgrowing⟩ := pages_without_gaps (.first 1) (.last 1) (by decide : 0 < 1)
  have hreading : Reading (.first 1) (.last 1) 1 (appended [7, 7, 9] .empty)
      (appended [5, 8] (appended [7, 7, 9] .empty))
      ⟨[event 7 0, event 7 1, event 8 0, event 9 0], none⟩ := by
    have hfirst : range (appended [7, 7, 9] .empty) (.first 1) (.last 1) 1 =
        .ok ⟨[event 7 0], some (event 7 1).id⟩ := range_of_scan (by decide +kernel)
    have hsecond : range (appended [5, 8] (appended [7, 7, 9] .empty)) (event 7 1).id (.last 1) 1 =
        .ok ⟨[event 7 1], some (event 8 0).id⟩ := range_of_scan (by decide +kernel)
    have hthird : range (appended [5, 8] (appended [7, 7, 9] .empty)) (event 8 0).id (.last 1) 1 =
        .ok ⟨[event 8 0], some (event 9 0).id⟩ := range_of_scan (by decide +kernel)
    have hfourth : range (appended [5, 8] (appended [7, 7, 9] .empty)) (event 9 0).id (.last 1) 1 =
        .ok ⟨[event 9 0], none⟩ := range_of_scan (by decide +kernel)
    exact .next (.next (.next (.grow (.begin hfirst) (grows_appended _ _)) hsecond) hthird) hfourth
  have hfold := hpages (appended [7, 7, 9] .empty) (fun n _ => .ok (n + 1)) 0 3 4 hkeys (by decide)
    (by decide +kernel) (by decide +kernel)
  obtain ⟨-, hascending, hcomplete⟩ := hgrowing _ _ _ hkeys hreading
  refine ⟨?_, hreading, hascending, fun e hhas hpartition => ?_⟩
  · rw [hfold.1]
    exact fold_eq_of_scan (by decide +kernel)
  · have hfirst := EventId.not_before_first e.id
    have hlast := EventId.not_last_before e.id
    rw [hpartition] at hfirst hlast
    exact hcomplete rfl e hhas hpartition hfirst hlast

end Log
end Chronicle
