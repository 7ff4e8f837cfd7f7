import Mathlib
import Chronicle.Proofs.LogContents

/-!
# Slices of a damaged log

A log may hold keys that name no event. A page that would go through such a key is refused, and any
other page has exactly the next events of the partition: it ends at the first event after the last
one asked for, at the first one there is no room for, or with the keys.
-/
namespace Chronicle

theorem Key.exists_log_of_length {p : UInt8} {key : Bytes} (hstem : partition p <+: key)
    (hlength : key.length = logLength) : ∃ id : EventId, id.partition = p ∧ key = log id := by
  obtain ⟨rest, rfl⟩ := hstem
  have hrest : rest.length = 10 := by
    simp [partition, logLength] at hlength
    omega
  have htime : (rest.take 8).length = 8 := by simp [hrest]
  have hindex : (rest.drop 8).length = 2 := by simp [hrest]
  have htimeLt := Bytes.bigEndianValue_lt (rest.take 8)
  have hindexLt := Bytes.bigEndianValue_lt (rest.drop 8)
  have htimeBytes := Bytes.bigEndian_bigEndianValue (rest.take 8)
  have hindexBytes := Bytes.bigEndian_bigEndianValue (rest.drop 8)
  rw [htime] at htimeLt htimeBytes
  rw [hindex] at hindexLt hindexBytes
  refine ⟨⟨p, UInt64.ofNat (Bytes.bigEndianValue (rest.take 8)),
    UInt16.ofNat (Bytes.bigEndianValue (rest.drop 8))⟩, rfl, ?_⟩
  rw [log, UInt64.toNat_ofNat_of_lt' htimeLt, UInt16.toNat_ofNat_of_lt' hindexLt, htimeBytes,
    hindexBytes, List.append_assoc, List.take_append_drop]

namespace Log

variable {keys : KeySpace} {first last : EventId} {size : Nat}

/-! ## The keys of a reading -/

/-- In their order, the keys of the partition of `first` that are not below its own key. -/
def keysFrom (keys : KeySpace) (first : EventId) : List Bytes :=
  (keys.toList.map Prod.fst).filter fun key =>
    (Key.partition first.partition).isPrefixOf key && (compare key (Key.log first)).isGE

/-- The key of an event that comes after `last`. -/
def isLate (last : EventId) (key : Bytes) : Bool :=
  (EventId.decode key).toOption.any fun id => compare id last = .gt

/-- The key of an event that does not come after `last`. -/
def isDue (last : EventId) (key : Bytes) : Bool :=
  (EventId.decode key).toOption.any fun id => compare id last ≠ .gt

/-- A page of `size` events up to `last` ends between the two parts: at an event that comes after
`last`, at one that there is no more room for, or where there are no more keys. -/
structure EndsAt (last : EventId) (size : Nat) (front rest : List Bytes) : Prop where
  not_late : ∀ key ∈ front, isLate last key = false
  room : front.countP (isDue last) ≤ size
  stop : ∀ key ∈ rest.head?, isLate last key = true ∨
    isDue last key = true ∧ front.countP (isDue last) = size

theorem isLate_log {id : EventId} : isLate last (Key.log id) = true ↔ last.Before id := by
  rw [← EventId.compare_eq_gt_iff]
  simp [isLate, EventId.decode_log, Except.toOption]

theorem isDue_log {id : EventId} : isDue last (Key.log id) = true ↔ ¬ last.Before id := by
  rw [← EventId.compare_eq_gt_iff]
  simp [isDue, EventId.decode_log, Except.toOption]

theorem exists_of_isLate {key : Bytes} (h : isLate last key = true) :
    ∃ id, key = Key.log id ∧ last.Before id := by
  unfold isLate at h
  cases hid : EventId.decode key with
  | error fault => simp [hid, Except.toOption] at h
  | ok id =>
    rw [EventId.decode_eq_ok_iff.mp hid] at h
    exact ⟨id, EventId.decode_eq_ok_iff.mp hid, isLate_log.mp h⟩

theorem exists_of_isDue {key : Bytes} (h : isDue last key = true) :
    ∃ id, key = Key.log id ∧ ¬ last.Before id := by
  unfold isDue at h
  cases hid : EventId.decode key with
  | error fault => simp [hid, Except.toOption] at h
  | ok id =>
    rw [EventId.decode_eq_ok_iff.mp hid] at h
    exact ⟨id, EventId.decode_eq_ok_iff.mp hid, isDue_log.mp h⟩

/-- Whatever the keys are, a page ends somewhere. -/
theorem exists_endsAt (last : EventId) (size : Nat) (all : List Bytes) :
    ∃ front rest, all = front ++ rest ∧ EndsAt last size front rest := by
  induction all using List.reverseRecOn with
  | nil => exact ⟨[], [], rfl, nofun, Nat.zero_le _, nofun⟩
  | append_singleton all key ih =>
    obtain ⟨front, rest, rfl, hends⟩ := ih
    cases rest with
    | cons other rest => exact ⟨front, other :: rest ++ [key], by simp, hends.1, hends.2, hends.3⟩
    | nil =>
      rw [List.append_nil]
      by_cases hlate : isLate last key = true
      · exact ⟨front, [key], rfl, hends.1, hends.2, by simp [hlate]⟩
      by_cases hfull : isDue last key = true ∧ front.countP (isDue last) = size
      · exact ⟨front, [key], rfl, hends.1, hends.2, by simp [hfull.1, hfull.2]⟩
      · refine ⟨front ++ [key], [], (List.append_nil _).symm, ?_, ?_, nofun⟩
        · rw [Bool.not_eq_true] at hlate
          exact List.forall_mem_append.mpr ⟨hends.not_late, by simpa using hlate⟩
        · have hroom := hends.room
          rw [List.countP_append, List.countP_singleton]
          split_ifs with hdue
          · have hne : front.countP (isDue last) ≠ size := fun heq => hfull ⟨hdue, heq⟩
            omega
          · exact hroom

theorem EndsAt.forall_not_before {front rest : List Bytes} (h : EndsAt last size front rest)
    {events : List LogEvent} (hevents : ∀ e ∈ events, Key.log e.id ∈ front) :
    ∀ e ∈ events, ¬ last.Before e.id := by
  intro e he hbefore
  have hlate := h.not_late _ (hevents e he)
  rw [isLate_log.mpr hbefore] at hlate
  cases hlate

theorem forall_isDue {events : List LogEvent} (h : ∀ e ∈ events, ¬ last.Before e.id) :
    ∀ key ∈ events.map fun e => Key.log e.id, isDue last key = true := by
  intro key hkey
  obtain ⟨e, he, rfl⟩ := List.mem_map.mp hkey
  exact isDue_log.mpr (h e he)

theorem countP_isDue {events : List LogEvent} (h : ∀ e ∈ events, ¬ last.Before e.id) :
    (events.map fun e => Key.log e.id).countP (isDue last) = events.length := by
  rw [List.countP_eq_length.mpr (forall_isDue h), List.length_map]

/-! ## The entries under them -/

theorem isGE_iff {a b : Bytes} : (compare a b).isGE = true ↔ compare b a ≠ .gt := by
  rw [Std.OrientedOrd.eq_swap (a := a)]
  cases compare b a <;> simp

theorem map_fst_scan (keys : KeySpace) (first : EventId) :
    (keys.scan (Key.log first) (Key.partition first.partition)).map Prod.fst =
      keysFrom keys first := by
  rw [keysFrom, List.filter_map]
  refine congrArg _ ((keys.ordered_scan _ _).eq_of_mem_iff (keys.ordered_toList.filter _) ?_)
  rintro ⟨key, stored⟩
  rw [KeySpace.mem_scan (Key.partition_prefix_log.mpr rfl), List.mem_filter, KeySpace.mem_toList,
    Function.comp_apply, Bool.and_eq_true, List.isPrefixOf_iff_prefix, isGE_iff,
    and_comm (a := _ <+: _)]

theorem ordered_keysFrom (keys : KeySpace) (first : EventId) :
    (keysFrom keys first).Pairwise fun a b => compare a b = .lt := by
  rw [← map_fst_scan]
  have hordered : KeySpace.Ordered (keys.scan (Key.log first) (Key.partition first.partition)) :=
    keys.ordered_scan _ _
  exact List.pairwise_map.mpr hordered

/-- Where all keys have the length of a log key, the entries are events. -/
theorem exists_events {p : UInt8} {entries : List (Bytes × Bytes)}
    (hstem : ∀ entry ∈ entries, Key.partition p <+: entry.1)
    (hmarked : ∀ entry ∈ entries, entry.2 ≠ [])
    (hlength : ∀ entry ∈ entries, entry.1.length = Key.logLength) :
    ∃ events : List LogEvent, entries = events.map LogEvent.entry ∧
      ∀ e ∈ events, e.id.partition = p := by
  have hevent : ∀ entry ∈ entries, entry ∈ Set.range LogEvent.entry := by
    rintro ⟨key, stored⟩ hentry
    obtain ⟨id, -, hid⟩ := Key.exists_log_of_length (hstem _ hentry) (hlength _ hentry)
    cases stored with
    | nil => exact absurd rfl (hmarked _ hentry)
    | cons mark payload => exact ⟨⟨mark, id, payload⟩, by rw [LogEvent.entry, ← hid]⟩
  obtain ⟨events, rfl⟩ := (Set.ext_iff.mp (Set.range_list_map LogEvent.entry) entries).mpr hevent
  refine ⟨events, rfl, fun e he => ?_⟩
  exact Key.partition_prefix_log.mp (hstem _ (List.mem_map_of_mem he))

/-- Takes one entry into a page. -/
def takeEntry (last : EventId) (size : Nat) :
    Folding (List LogEvent) → Bytes → Entry → Outcome (Visit (Folding (List LogEvent))) :=
  foldEntry last size fun found e => .ok (e :: found)

/-- A page goes through the events that it has room for, and keeps them. -/
theorem visitAll_events {events : List LogEvent} (hlast : ∀ e ∈ events, ¬ last.Before e.id)
    {folded : Nat} (hroom : folded + events.length ≤ size) (tail : List (Bytes × Bytes))
    (found : List LogEvent) :
    KeySpace.visitAll (takeEntry last size) (events.map LogEvent.entry ++ tail)
        ⟨found, folded, none⟩ =
      KeySpace.visitAll (takeEntry last size) tail
        ⟨events.reverse ++ found, folded + events.length, none⟩ := by
  induction events generalizing folded found with
  | nil => rfl
  | cons e events ih =>
    obtain ⟨he, hevents⟩ := List.forall_mem_cons.mp hlast
    have hle : ¬ compare e.id last = .gt := EventId.compare_eq_gt_iff.not.mpr he
    rw [List.length_cons] at hroom
    have hspace : ¬ size ≤ folded := by omega
    have hrest : folded + 1 + events.length ≤ size := by omega
    have hread : Entry.ofStored (Key.log e.id) (e.mark :: e.payload) = .ok ⟨e.mark, e.payload⟩ := rfl
    rw [List.map_cons, List.cons_append, LogEvent.entry, KeySpace.visitAll, hread]
    simp only [bind, Except.bind, takeEntry, foldEntry, EventId.decode_log, if_neg hle,
      if_neg hspace, pure, Except.pure]
    rw [← takeEntry, ih hevents hrest, List.reverse_cons, List.append_assoc, List.length_cons,
      Nat.add_right_comm, Nat.add_assoc]
    rfl

/-- The page that a reading has come to. -/
def Folding.page (s : Folding (List LogEvent)) : Page (List LogEvent) := ⟨s.state.reverse, s.next⟩

theorem range_eq_visitAll (hsize : 0 < size) :
    range keys first last size = Folding.page <$> KeySpace.visitAll (takeEntry last size)
      (keys.scan (Key.log first) (Key.partition first.partition)) ⟨[], 0, none⟩ := by
  rw [range_eq_map, fold, if_neg hsize.ne', KeySpace.fold_eq_visitAll]
  change _ = Folding.page <$> KeySpace.visitAll (foldEntry last size _) _ _
  cases KeySpace.visitAll (foldEntry last size fun found e => .ok (e :: found))
    (keys.scan (Key.log first) (Key.partition first.partition)) ⟨[], 0, none⟩ <;> rfl

/-! ## Pages -/

variable {front rest good more : List Bytes}

/-- As long as the keys have the length of log keys, a page goes through them and keeps their
events. -/
theorem EndsAt.exists_events (hends : EndsAt last size (good ++ more) rest) (hmarked : keys.Marked)
    (hsize : 0 < size) (hkeys : keysFrom keys first = good ++ more ++ rest)
    (hgood : ∀ key ∈ good, key.length = Key.logLength) :
    ∃ (events : List LogEvent) (tail : List (Bytes × Bytes)),
      good = events.map (fun e => Key.log e.id) ∧ events.length ≤ size ∧
      (∀ e ∈ events, Has keys e ∧ e.id.partition = first.partition ∧ ¬ e.id.Before first ∧
        ¬ last.Before e.id) ∧
      tail.map Prod.fst = more ++ rest ∧ (∀ entry ∈ tail, entry.2 ≠ []) ∧
      range keys first last size = Folding.page <$>
        KeySpace.visitAll (takeEntry last size) tail ⟨events.reverse, events.length, none⟩ := by
  rw [← map_fst_scan, List.append_assoc] at hkeys
  obtain ⟨visited, tail, hscan, rfl, htail⟩ := List.map_eq_append_iff.mp hkeys
  have hentries : ∀ entry ∈ visited ++ tail, keys.stored? entry.1 = some entry.2 ∧
      compare (Key.log first) entry.1 ≠ .gt ∧ Key.partition first.partition <+: entry.1 := by
    intro entry hentry
    rw [← hscan] at hentry
    exact (KeySpace.mem_scan (Key.partition_prefix_log.mpr rfl)).mp hentry
  have hmark : ∀ entry ∈ visited ++ tail, entry.2 ≠ [] := fun entry hentry hnil =>
    hmarked entry.1 (hnil ▸ (hentries entry hentry).1)
  have hlength : ∀ entry ∈ visited, entry.1.length = Key.logLength := fun entry hentry =>
    hgood _ (List.mem_map_of_mem hentry)
  obtain ⟨events, rfl, hpartition⟩ := Log.exists_events
    (fun entry hentry => (hentries entry (List.mem_append_left _ hentry)).2.2)
    (fun entry hentry => hmark entry (List.mem_append_left _ hentry)) hlength
  have hlogs : (events.map LogEvent.entry).map Prod.fst = events.map fun e => Key.log e.id :=
    List.map_map
  rw [hlogs] at hends hgood
  have hlast : ∀ e ∈ events, ¬ last.Before e.id := hends.forall_not_before fun e he =>
    List.mem_append_left _ (List.mem_map.mpr ⟨e, he, rfl⟩)
  have hroom : events.length ≤ size := by
    have hcount := hends.room
    rw [List.countP_append, countP_isDue hlast] at hcount
    omega
  refine ⟨events, tail, hlogs, hroom, fun e he => ?_, htail,
    fun entry hentry => hmark entry (List.mem_append_right _ hentry), ?_⟩
  · obtain ⟨hstored, hge, -⟩ :=
      hentries e.entry (List.mem_append_left _ (List.mem_map_of_mem he))
    rw [LogEvent.entry, EventId.compare_log, ne_eq, EventId.compare_eq_gt_iff] at hge
    exact ⟨hstored, hpartition e he, hge, hlast e he⟩
  · rw [range_eq_visitAll hsize, hscan, visitAll_events hlast (by omega), List.append_nil,
      Nat.zero_add]

/-- A page does not get past a key that names no event. -/
theorem EndsAt.range_eq_error (hends : EndsAt last size front rest) (hmarked : keys.Marked)
    (hsize : 0 < size) (hkeys : keysFrom keys first = front ++ rest) {key : Bytes}
    (hbad : front.find? (fun key => key.length ≠ Key.logLength) = some key) :
    range keys first last size = .error (.badKey (.logKeyLength key.length)) := by
  obtain ⟨hlength, good, more, rfl, hgood⟩ := List.find?_eq_some_iff_append.mp hbad
  obtain ⟨events, tail, -, -, -, htail, hmark, hrange⟩ :=
    hends.exists_events hmarked hsize hkeys (by simpa using hgood)
  obtain ⟨⟨found, stored⟩, tail, rfl, rfl, -⟩ := List.map_eq_cons_iff.mp htail
  have hdecode : EventId.decode found = .error (.badKey (.logKeyLength found.length)) := by
    rw [EventId.decode, if_pos (by simpa using hlength)]
  cases stored with
  | nil => exact absurd rfl (hmark _ List.mem_cons_self)
  | cons mark value =>
    rw [hrange, KeySpace.visitAll]
    simp only [Entry.ofStored, bind, Except.bind, takeEntry, foldEntry, hdecode]
    rfl

/-- After a late event there are only later ones. -/
theorem filter_isDue_of_isLate {key : Bytes} {others : List Bytes} (hlate : isLate last key = true)
    (hsorted : (key :: others).Pairwise fun a b => compare a b = .lt) :
    (key :: others).filter (isDue last) = [] := by
  obtain ⟨id, rfl, hid⟩ := exists_of_isLate hlate
  refine List.filter_eq_nil_iff.mpr fun other hother hdue => ?_
  obtain ⟨id', rfl, hid'⟩ := exists_of_isDue hdue
  rcases List.mem_cons.mp hother with heq | hother
  · exact hid' (Key.log_injective heq ▸ hid)
  · have hafter := (List.pairwise_cons.mp hsorted).1 _ hother
    rw [EventId.compare_log] at hafter
    exact hid' (hid.trans hafter)

/-- Of the events that are due, a page takes the first ones, and the next one is where it ends. -/
theorem EndsAt.due_eq (hends : EndsAt last size front rest)
    (hfront : ∀ key ∈ front, isDue last key = true)
    (hsorted : rest.Pairwise fun a b => compare a b = .lt) :
    ((front ++ rest).filter (isDue last)).take size = front ∧
      ((front ++ rest).filter (isDue last))[size]? = rest.head?.filter (isDue last) := by
  have hroom := hends.room
  rw [List.countP_eq_length.mpr hfront] at hroom
  rw [List.filter_append, List.filter_eq_self.mpr hfront]
  cases rest with
  | nil =>
    rw [List.filter_nil, List.append_nil]
    exact ⟨List.take_of_length_le hroom, List.getElem?_eq_none hroom⟩
  | cons key others =>
    rcases hends.stop key rfl with hlate | ⟨hdue, hfull⟩
    · have hnot : (key :: others).filter (isDue last) = [] := filter_isDue_of_isLate hlate hsorted
      have hkey : isDue last key = false := by
        simpa using List.filter_eq_nil_iff.mp hnot key List.mem_cons_self
      rw [hnot, List.append_nil]
      exact ⟨List.take_of_length_le hroom,
        (List.getElem?_eq_none hroom).trans (Option.filter_some_neg hkey).symm⟩
    · rw [List.countP_eq_length.mpr hfront] at hfull
      subst hfull
      rw [List.filter_cons_of_pos hdue]
      exact ⟨List.take_left, by simp [Option.filter_some_pos hdue]⟩

/-- How a page ends whose events have been found: with the keys, with a late event, or with the
event that there is no more room for. -/
theorem visitAll_eq_ok {events : List LogEvent} {tail : List (Bytes × Bytes)}
    (hmark : ∀ entry ∈ tail, entry.2 ≠ [])
    (hstop : ∀ key ∈ (tail.map Prod.fst).head?, isLate last key = true ∨
      isDue last key = true ∧ events.length = size) :
    ∃ page : Page (List LogEvent), Folding.page <$> KeySpace.visitAll (takeEntry last size) tail
        ⟨events.reverse, events.length, none⟩ = .ok page ∧ page.events = events ∧
      page.next.map Key.log = (tail.map Prod.fst).head?.filter (isDue last) := by
  cases tail with
  | nil => exact ⟨⟨events, none⟩, by simp [KeySpace.visitAll, Folding.page], rfl, rfl⟩
  | cons entry tail =>
    obtain ⟨key, stored⟩ := entry
    cases stored with
    | nil => exact absurd rfl (hmark _ List.mem_cons_self)
    | cons mark value =>
      rcases hstop key rfl with hlate | ⟨hdue, hfull⟩
      · obtain ⟨id, rfl, hid⟩ := exists_of_isLate hlate
        have hgt : compare id last = .gt := EventId.compare_eq_gt_iff.mpr hid
        have hnot : isDue last (Key.log id) = false :=
          Bool.eq_false_iff.mpr (isDue_log.not.mpr (not_not.mpr hid))
        refine ⟨⟨events, none⟩, ?_, rfl, (Option.filter_some_neg hnot).symm⟩
        simp [KeySpace.visitAll, Entry.ofStored, takeEntry, foldEntry, EventId.decode_log, hgt,
          Folding.page, bind, Except.bind, pure, Except.pure]
      · obtain ⟨id, rfl, hid⟩ := exists_of_isDue hdue
        have hle : ¬ compare id last = .gt := EventId.compare_eq_gt_iff.not.mpr hid
        refine ⟨⟨events, some id⟩, ?_, rfl, (Option.filter_some_pos hdue).symm⟩
        simp [KeySpace.visitAll, Entry.ofStored, takeEntry, foldEntry, EventId.decode_log, hle,
          hfull, Folding.page, bind, Except.bind, pure, Except.pure]

/-- A page that meets no such key has the first events that are due, and names the next one. -/
theorem EndsAt.range_eq_ok (hends : EndsAt last size front rest) (hmarked : keys.Marked)
    (hsize : 0 < size) (hkeys : keysFrom keys first = front ++ rest)
    (hgood : ∀ key ∈ front, key.length = Key.logLength) :
    ∃ page, range keys first last size = .ok page ∧
      page.events.map (fun e => Key.log e.id) =
        ((keysFrom keys first).filter (isDue last)).take size ∧
      page.next.map Key.log = ((keysFrom keys first).filter (isDue last))[size]? ∧
      page.events.Pairwise (fun a b => a.id.Before b.id) ∧
      ∀ e ∈ page.events, Has keys e ∧ e.id.partition = first.partition ∧ ¬ e.id.Before first ∧
        ¬ last.Before e.id := by
  rw [← List.append_nil front] at hends hkeys
  obtain ⟨events, tail, rfl, hroom, hevents, htail, hmark, hrange⟩ :=
    hends.exists_events hmarked hsize hkeys hgood
  rw [List.append_nil] at hends hkeys
  rw [List.nil_append] at htail
  subst htail
  have hlast : ∀ e ∈ events, ¬ last.Before e.id := fun e he => (hevents e he).2.2.2
  obtain ⟨page, hpage, rfl, hnext⟩ := visitAll_eq_ok hmark (countP_isDue hlast ▸ hends.stop)
  have hsorted := ordered_keysFrom keys first
  rw [hkeys, List.pairwise_append, List.pairwise_map] at hsorted
  obtain ⟨htake, hget⟩ := hends.due_eq (forall_isDue hlast) hsorted.2.1
  rw [hkeys]
  refine ⟨page, hrange.trans hpage, htake.symm, hnext.trans hget.symm, ?_, hevents⟩
  exact hsorted.1.imp fun hab => (EventId.compare_log _ _).symm.trans hab

theorem get_of_has {e : LogEvent} (h : Has keys e) : get keys e.id = .ok e := by
  have hentry : keys.get (Key.log e.id) = .ok (some ⟨e.mark, e.payload⟩) :=
    KeySpace.get_eq_some (Key.log_ne_nil _) h
  rw [get, hentry]

/-- A page is cut out of the keys of its partition from `first` on, in order. It ends at the first
event after `last`, at the first one beyond its size, or with the keys. If it goes through a key that
names no event, it fails at that key; otherwise it has exactly the events up to `last`, or the first
of them that there is room for, as they can be got one by one, and names the next of them if there
is one. -/
theorem range_exact_slice (keys : KeySpace) (hmarked : keys.Marked) (first last : EventId) {size : Nat}
    (hsize : 0 < size) :
    (∃ front rest, keysFrom keys first = front ++ rest ∧ EndsAt last size front rest) ∧
    ∀ front rest, keysFrom keys first = front ++ rest → EndsAt last size front rest →
      (∀ key, front.find? (fun key => key.length ≠ Key.logLength) = some key →
        range keys first last size = .error (.badKey (.logKeyLength key.length))) ∧
      ((∀ key ∈ front, key.length = Key.logLength) →
        ∃ page, range keys first last size = .ok page ∧
          page.events.map (fun e => Key.log e.id) =
            ((keysFrom keys first).filter (isDue last)).take size ∧
          page.next.map Key.log = ((keysFrom keys first).filter (isDue last))[size]? ∧
          page.events.Pairwise (fun a b => a.id.Before b.id) ∧
          ∀ e ∈ page.events, get keys e.id = .ok e ∧ e.id.partition = first.partition ∧
            ¬ e.id.Before first ∧ ¬ last.Before e.id) := by
  refine ⟨exists_endsAt last size _, fun front rest hkeys hends => ⟨fun key hbad => ?_, fun hgood => ?_⟩⟩
  · exact hends.range_eq_error hmarked hsize hkeys hbad
  · obtain ⟨page, hpage, hdue, hnext, hsorted, hevents⟩ :=
      hends.range_eq_ok hmarked hsize hkeys hgood
    exact ⟨page, hpage, hdue, hnext, hsorted,
      fun e he => ⟨get_of_has (hevents e he).1, (hevents e he).2⟩⟩

namespace Slices

/-- Three events of a partition, with a key too long after the second and one too short at the end,
and an event of the next partition. -/
def damaged : KeySpace :=
  (((((KeySpace.empty.insert (Key.log ⟨1, 5, 0⟩) [8, 70]).insert (Key.log ⟨1, 5, 1⟩) [8]).insert
    (Key.log ⟨1, 5, 1⟩ ++ [0]) [8]).insert (Key.log ⟨1, 9, 0⟩) [4]).insert
    (Key.partition 1 ++ [255]) [0]).insert (Key.log ⟨2, 0, 0⟩) [8]

/-- The page of one event ends before the damage, a page of two does not. -/
theorem range_exact_slice_damaged :
    damaged.Marked ∧ 0 < 1 ∧
      (∃ page, range damaged (.first 1) (.last 1) 1 = .ok page ∧
        page.events.map (fun e => Key.log e.id) = [Key.log ⟨1, 5, 0⟩] ∧
        page.next.map Key.log = some (Key.log ⟨1, 5, 1⟩)) ∧
      range damaged (.first 1) (.last 1) 2 = .error (.badKey (.logKeyLength 14)) := by
  have hmarked : damaged.Marked := KeySpace.marked_of_forall_toList (by decide +kernel)
  have hkeys : keysFrom damaged (.first 1) = [Key.log ⟨1, 5, 0⟩, Key.log ⟨1, 5, 1⟩,
      Key.log ⟨1, 5, 1⟩ ++ [0], Key.log ⟨1, 9, 0⟩, Key.partition 1 ++ [255]] := by decide +kernel
  obtain ⟨-, hone⟩ := range_exact_slice damaged hmarked (.first 1) (.last 1) Nat.one_pos
  obtain ⟨-, htwo⟩ := range_exact_slice damaged hmarked (.first 1) (.last 1) Nat.two_pos
  refine ⟨hmarked, Nat.one_pos, ?_, ?_⟩
  · have hends : EndsAt (.last 1) 1 [Key.log ⟨1, 5, 0⟩] [Key.log ⟨1, 5, 1⟩,
        Key.log ⟨1, 5, 1⟩ ++ [0], Key.log ⟨1, 9, 0⟩, Key.partition 1 ++ [255]] := by
      refine ⟨by decide +kernel, by decide +kernel, fun key hkey => ?_⟩
      cases hkey
      exact .inr (by decide +kernel)
    obtain ⟨page, hpage, hevents, hnext, -⟩ := (hone _ _ hkeys hends).2 (by decide +kernel)
    rw [hkeys] at hevents hnext
    exact ⟨page, hpage, hevents.trans (by decide +kernel), hnext.trans (by decide +kernel)⟩
  · have hends : EndsAt (.last 1) 2 [Key.log ⟨1, 5, 0⟩, Key.log ⟨1, 5, 1⟩,
        Key.log ⟨1, 5, 1⟩ ++ [0]] [Key.log ⟨1, 9, 0⟩, Key.partition 1 ++ [255]] := by
      refine ⟨by decide +kernel, by decide +kernel, fun key hkey => ?_⟩
      cases hkey
      exact .inr (by decide +kernel)
    exact (htwo _ _ hkeys hends).1 (Key.log ⟨1, 5, 1⟩ ++ [0]) (by decide +kernel)

end Slices

end Log
end Chronicle
