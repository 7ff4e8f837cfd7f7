import Mathlib
import Chronicle.Proofs.LogContents
import Chronicle.Proofs.LogText

/-!
# Continuing a log report

A page of the log ends at an identity, but a report tells only the timestamp to continue from, and
the next run starts again with the first event of that timestamp. Runs that follow each other in
this way print every event exactly once if and only if no timestamp goes on over the end of a
page, and they come to an end if and only if every timestamp fits on a page.
-/
namespace Chronicle
namespace Log

/-! ## Following from one start to the next -/

/-- From a start on, each next start is the one that the start before tells of, and the last one
tells of none. -/
inductive Follows {α : Type} (next : α → Option α) : α → List α → Prop
  | last {start : α} (h : next start = none) : Follows next start [start]
  | more {start following : α} {starts : List α} (h : next start = some following)
      (hstarts : Follows next following starts) : Follows next start (start :: starts)

/-- In the order of their timestamps. -/
def Timely (events : List LogEvent) : Prop :=
  events.Pairwise fun a b => a.id.timestamp ≤ b.id.timestamp

/-- The events from a timestamp on. -/
def since (start : UInt64) (events : List LogEvent) : List LogEvent :=
  events.filter fun e => start ≤ e.id.timestamp

/-- The page of the events from a timestamp on. -/
def pageSince (limit : Nat) (events : List LogEvent) (start : UInt64) : Page (List LogEvent) :=
  ⟨(since start events).take limit, ((since start events).drop limit).head?.map LogEvent.id⟩

/-- How many events have this timestamp. -/
def countAt (timestamp : UInt64) (events : List LogEvent) : Nat :=
  events.countP fun e => e.id.timestamp = timestamp

/-- No timestamp goes on where a page of `limit` events ends. -/
def CutsApart (limit : Nat) (events : List LogEvent) : Prop :=
  ∀ pages, ∀ a ∈ events.take (pages * limit), ∀ b ∈ events.drop (pages * limit),
    a.id.timestamp ≠ b.id.timestamp

/-- The timestamp of the first event that a page has no room for. -/
def following? (limit : Nat) (events : List LogEvent) (start : UInt64) : Option UInt64 :=
  (pageSince limit events start).next.map EventId.timestamp

variable {events front rest : List LogEvent} {start t : UInt64} {limit : Nat} {e : LogEvent}

theorem since_zero (events : List LogEvent) : since 0 events = events := by
  simp [since]

theorem since_since (h : start ≤ t) (events : List LogEvent) :
    since t (since start events) = since t events := by
  simp only [since, List.filter_filter]
  refine List.filter_congr fun e _ => ?_
  simpa using fun ht => UInt64.le_trans h ht

theorem le_of_mem_since (he : e ∈ since start events) : start ≤ e.id.timestamp :=
  of_decide_eq_true (List.mem_filter.1 he).2

theorem countAt_since (h : start ≤ t) (events : List LogEvent) :
    countAt t (since start events) = countAt t events := by
  rw [countAt, since, List.countP_filter]
  refine List.countP_congr fun e _ => ?_
  simpa using fun ht => ht ▸ h

theorem Timely.since (h : Timely events) (start : UInt64) : Timely (since start events) :=
  h.sublist List.filter_sublist

theorem Timely.since_eq_drop (h : Timely events) (start : UInt64) :
    ∃ earlier, events = earlier ++ Log.since start events ∧
      ∀ e ∈ earlier, e.id.timestamp < start := by
  induction events with
  | nil => exact ⟨[], rfl, nofun⟩
  | cons first events ih =>
    obtain ⟨hfirst, hevents⟩ := List.pairwise_cons.1 h
    by_cases hle : start ≤ first.id.timestamp
    · have hall : ∀ e ∈ first :: events, start ≤ e.id.timestamp :=
        List.forall_mem_cons.2 ⟨hle, fun e he => UInt64.le_trans hle (hfirst e he)⟩
      have hsince : Log.since start (first :: events) = first :: events :=
        List.filter_eq_self.2 fun e he => decide_eq_true (hall e he)
      exact ⟨[], hsince.symm, nofun⟩
    · obtain ⟨earlier, hearlier, hlt⟩ := ih hevents
      refine ⟨first :: earlier, ?_, List.forall_mem_cons.2 ⟨UInt64.not_le.1 hle, hlt⟩⟩
      simpa [Log.since, hle] using hearlier

/-- The page that tells no place to continue has all events. -/
theorem whole_of_following? (h : following? limit events start = none) :
    (since start events).length ≤ limit ∧
      (pageSince limit events start).events = since start events := by
  have hrest : (since start events).drop limit = [] := by
    simpa [following?, pageSince, List.drop_eq_nil_iff] using h
  have hlength := List.drop_eq_nil_iff.1 hrest
  exact ⟨hlength, List.take_of_length_le hlength⟩

/-- A page that tells where to continue is full and ends before an event of that timestamp. -/
theorem cut_of_following? (h : following? limit events start = some t) :
    ∃ front e rest, since start events = front ++ e :: rest ∧ front.length = limit ∧
      (pageSince limit events start).events = front ∧ e.id.timestamp = t := by
  cases hrest : (since start events).drop limit with
  | nil => simp [following?, pageSince, hrest] at h
  | cons e rest =>
    have hsplit := List.take_append_drop limit (since start events)
    have hlength : limit ≤ (since start events).length := by
      by_contra hlt
      rw [List.drop_of_length_le (by omega)] at hrest
      cases hrest
    have htime : e.id.timestamp = t := by simpa [following?, pageSince, hrest] using h
    exact ⟨_, e, rest, (hrest ▸ hsplit).symm, List.length_take_of_le hlength, rfl, htime⟩

theorem le_cut (hsplit : since start events = front ++ e :: rest) : start ≤ e.id.timestamp := by
  have hmem : e ∈ since start events := by simp [hsplit]
  exact le_of_mem_since hmem

/-- Around a page cut the timestamps do not decrease. -/
theorem Timely.cut_le (h : Timely events) (hsplit : Log.since start events = front ++ e :: rest) :
    (∀ a ∈ front, a.id.timestamp ≤ e.id.timestamp) ∧
      ∀ b ∈ e :: rest, e.id.timestamp ≤ b.id.timestamp := by
  have htimely := h.since start
  rw [hsplit, Timely, List.pairwise_append, List.pairwise_cons] at htimely
  obtain ⟨-, ⟨hrest, -⟩, hacross⟩ := htimely
  exact ⟨fun a ha => hacross a ha e List.mem_cons_self,
    List.forall_mem_cons.2 ⟨UInt64.le_refl _, hrest⟩⟩

/-- What the next page goes through: the events that were left, and before them those of the page
before that share the timestamp. -/
theorem since_cut (h : Timely events) (hsplit : since start events = front ++ e :: rest) :
    since e.id.timestamp events = since e.id.timestamp front ++ e :: rest := by
  have hle := le_cut hsplit
  have hrest := (h.cut_le hsplit).2
  calc since e.id.timestamp events
    _ = since e.id.timestamp (since start events) := (since_since hle events).symm
    _ = since e.id.timestamp front ++ since e.id.timestamp (e :: rest) := by
      rw [hsplit, since, List.filter_append]; rfl
    _ = since e.id.timestamp front ++ e :: rest := by
      congr 1
      exact List.filter_eq_self.2 fun a ha => decide_eq_true (hrest a ha)

theorem cutsApart_of_length_le (hlength : events.length ≤ limit) : CutsApart limit events := by
  intro pages a ha b hb
  cases pages with
  | zero => simp at ha
  | succ pages =>
    have hend : limit ≤ (pages + 1) * limit := Nat.le_mul_of_pos_left _ pages.succ_pos
    rw [List.drop_of_length_le (hlength.trans hend)] at hb
    cases hb

theorem cutsApart_append (hlength : front.length = limit) :
    CutsApart limit (front ++ rest) ↔
      (∀ a ∈ front, ∀ b ∈ rest, a.id.timestamp ≠ b.id.timestamp) ∧ CutsApart limit rest := by
  have htake : ∀ pages, (front ++ rest).take ((pages + 1) * limit) =
      front ++ rest.take (pages * limit) := by
    intro pages
    rw [Nat.add_mul, Nat.one_mul, Nat.add_comm, ← hlength, List.take_length_add_append]
  have hdrop : ∀ pages, (front ++ rest).drop ((pages + 1) * limit) =
      rest.drop (pages * limit) := by
    intro pages
    rw [Nat.add_mul, Nat.one_mul, Nat.add_comm, ← hlength, List.drop_length_add_append]
  constructor
  · intro h
    refine ⟨fun a ha b hb => h 1 a ?_ b ?_, fun pages a ha b hb => h (pages + 1) a ?_ b ?_⟩
    · rw [htake 0]
      exact List.mem_append_left _ ha
    · rw [hdrop 0]
      simpa using hb
    · simpa [htake] using Or.inr ha
    · simpa [hdrop] using hb
  · rintro ⟨hfront, hrest⟩ pages a ha b hb
    cases pages with
    | zero => simp at ha
    | succ pages =>
      rw [htake] at ha
      rw [hdrop] at hb
      rcases List.mem_append.1 ha with ha | ha
      · exact hfront a ha b (List.mem_of_mem_drop hb)
      · exact hrest pages a ha b hb

/-! ## Runs of pages -/

/-- The events on the pages from these starts on. -/
def onPages (limit : Nat) (events : List LogEvent) (starts : List UInt64) : List LogEvent :=
  starts.flatMap fun start => (pageSince limit events start).events

variable {starts : List UInt64}

theorem Follows.length_le (hevents : Timely events)
    (h : Follows (following? limit events) start starts) :
    (since start events).length ≤ (onPages limit events starts).length := by
  induction h with
  | last hnone => simp [onPages, whole_of_following? hnone]
  | more hsome hstarts ih =>
    obtain ⟨front, e, rest, hsplit, -, hpage, rfl⟩ := cut_of_following? hsome
    rw [since_cut hevents hsplit] at ih
    simp [onPages, hpage, hsplit] at ih ⊢
    omega

theorem countAt_le_length (t : UInt64) (events : List LogEvent) :
    countAt t events ≤ events.length := List.countP_le_length

theorem Follows.countAt_le (hevents : Timely events)
    (h : Follows (following? limit events) start starts) (ht : start ≤ t) :
    countAt t events ≤ limit := by
  induction h with
  | last hnone =>
    rw [← countAt_since ht]
    exact (countAt_le_length _ _).trans (whole_of_following? hnone).1
  | more hsome hstarts ih =>
    obtain ⟨front, e, rest, hsplit, hlength, -, rfl⟩ := cut_of_following? hsome
    by_cases hle : e.id.timestamp ≤ t
    · exact ih hle
    · -- The timestamp is done with on this page.
      have hrest : countAt t (e :: rest) = 0 := by
        refine List.countP_eq_zero.2 fun a ha hat => hle ?_
        have hmem : a ∈ since e.id.timestamp events :=
          since_cut hevents hsplit ▸ List.mem_append_right _ ha
        exact of_decide_eq_true hat ▸ le_of_mem_since hmem
      calc countAt t events
        _ = countAt t (front ++ e :: rest) := by rw [← hsplit, countAt_since ht]
        _ = countAt t front + countAt t (e :: rest) := List.countP_append
        _ ≤ limit := by rw [hrest, ← hlength]; exact countAt_le_length _ _

/-- Where the timestamp to continue from fits on a page, the page begins with an earlier one. -/
theorem since_cut_shorter (hevents : Timely events)
    (hsplit : since start events = front ++ e :: rest) (hlength : front.length = limit)
    (hcount : countAt e.id.timestamp events ≤ limit) :
    (since e.id.timestamp front).length < front.length := by
  refine lt_of_le_of_ne (List.length_filter_le _ _) fun heq => ?_
  have hsame : ∀ a ∈ front, a.id.timestamp = e.id.timestamp := by
    intro a ha
    have hge := of_decide_eq_true (List.length_filter_eq_length_iff.1 heq a ha)
    exact UInt64.le_antisymm ((hevents.cut_le hsplit).1 a ha) hge
  have hfront : countAt e.id.timestamp front = front.length :=
    List.countP_eq_length.2 fun a ha => decide_eq_true (hsame a ha)
  have hrest : countAt e.id.timestamp (e :: rest) = countAt e.id.timestamp rest + 1 :=
    List.countP_cons_of_pos (by simp)
  have hall : countAt e.id.timestamp events =
      countAt e.id.timestamp front + countAt e.id.timestamp (e :: rest) := by
    rw [← countAt_since (le_cut hsplit), hsplit]
    exact List.countP_append
  omega

theorem exists_follows (hevents : Timely events)
    (hcount : ∀ t, start ≤ t → countAt t events ≤ limit) :
    ∃ starts, Follows (following? limit events) start starts := by
  induction hsize : (since start events).length using Nat.strong_induction_on
    generalizing start with
  | _ size ih =>
    cases hnext : following? limit events start with
    | none => exact ⟨_, .last hnext⟩
    | some t =>
      obtain ⟨front, e, rest, hsplit, hlength, -, rfl⟩ := cut_of_following? hnext
      have hle := le_cut hsplit
      have hshorter := since_cut_shorter hevents hsplit hlength (hcount _ hle)
      have hsmall : (since e.id.timestamp events).length < size := by
        rw [← hsize, since_cut hevents hsplit, hsplit, List.length_append, List.length_append]
        omega
      obtain ⟨starts, hstarts⟩ :=
        ih _ hsmall (fun t ht => hcount t (UInt64.le_trans hle ht)) rfl
      exact ⟨_, .more hnext hstarts⟩

/-- The next page begins with no event of this one, if their timestamps differ. -/
theorem since_cut_apart (hevents : Timely events) (hsplit : since start events = front ++ e :: rest)
    (hapart : ∀ a ∈ front, a.id.timestamp ≠ e.id.timestamp) :
    since e.id.timestamp events = e :: rest := by
  have hnone : since e.id.timestamp front = [] := by
    refine List.filter_eq_nil_iff.2 fun a ha hge => hapart a ha ?_
    exact UInt64.le_antisymm ((hevents.cut_le hsplit).1 a ha) (of_decide_eq_true hge)
  rw [since_cut hevents hsplit, hnone, List.nil_append]

theorem Follows.cutsApart (hevents : Timely events)
    (h : Follows (following? limit events) start starts)
    (hall : onPages limit events starts = since start events) :
    CutsApart limit (since start events) := by
  induction h with
  | last hnone => exact cutsApart_of_length_le (whole_of_following? hnone).1
  | @more start _ starts hsome hstarts ih =>
    obtain ⟨front, e, rest, hsplit, hlength, hpage, rfl⟩ := cut_of_following? hsome
    have hrest : onPages limit events starts = e :: rest := by
      simpa [onPages, hpage, hsplit] using hall
    have hcut := since_cut hevents hsplit
    -- The pages that follow have no room for an event of this page.
    have hnone : since e.id.timestamp front = [] := by
      have hle := hstarts.length_le hevents
      rw [hrest, hcut, List.length_append] at hle
      exact List.length_eq_zero_iff.1 (by omega)
    rw [hnone, List.nil_append] at hcut
    rw [hsplit, cutsApart_append hlength]
    refine ⟨fun a ha b hb heq => ?_, hcut ▸ ih (hrest.trans hcut.symm)⟩
    have hlt : ¬ e.id.timestamp ≤ a.id.timestamp := by
      simpa using List.filter_eq_nil_iff.1 hnone a ha
    exact hlt (heq ▸ (hevents.cut_le hsplit).2 b hb)

theorem exists_follows_once (hevents : Timely events) (hlimit : 0 < limit)
    (hcuts : CutsApart limit (since start events)) :
    ∃ starts, Follows (following? limit events) start starts ∧
      onPages limit events starts = since start events := by
  induction hsize : (since start events).length using Nat.strong_induction_on
    generalizing start with
  | _ size ih =>
    cases hnext : following? limit events start with
    | none => exact ⟨_, .last hnext, by simp [onPages, whole_of_following? hnext]⟩
    | some t =>
      obtain ⟨front, e, rest, hsplit, hlength, hpage, rfl⟩ := cut_of_following? hnext
      rw [hsplit, cutsApart_append hlength] at hcuts
      obtain ⟨hfront, hrest⟩ := hcuts
      have hcut := since_cut_apart hevents hsplit fun a ha => hfront a ha e List.mem_cons_self
      have hsmall : (since e.id.timestamp events).length < size := by
        rw [← hsize, hcut, hsplit, List.length_append]
        omega
      obtain ⟨starts, hstarts, hall⟩ := ih _ hsmall (hcut ▸ hrest) rfl
      refine ⟨_, .more hnext hstarts, ?_⟩
      rw [hcut] at hall
      simp only [onPages, List.flatMap_cons, hpage, hsplit]
      exact congrArg _ hall

/-! ## Logs of events -/

variable {keys : KeySpace} {p : UInt8}

theorem Lists.timely (h : Lists keys p events) : Timely events := by
  refine h.sorted.imp_of_mem fun {a b} ha hb hab => ?_
  rw [EventId.before_iff ((h.partition a ha).trans (h.partition b hb).symm)] at hab
  rcases hab with hlt | ⟨heq, -⟩
  · exact UInt64.le_of_lt hlt
  · exact heq ▸ UInt64.le_refl _

theorem Lists.range_since (h : Lists keys p events) (hlimit : 0 < limit) (start : UInt64) :
    range keys ⟨p, start, 0⟩ (.last p) limit = .ok (pageSince limit events start) := by
  obtain ⟨earlier, hsplit, hearlier⟩ := h.timely.since_eq_drop start
  have htake : events.take earlier.length = earlier := by
    rw [hsplit]
    simp
  have hdrop : events.drop earlier.length = since start events := by
    conv_lhs => rw [hsplit]
    simp
  have hstarts : Starts events earlier.length ⟨p, start, 0⟩ := by
    refine ⟨fun e he => ?_, fun e he hbefore => ?_⟩
    · rw [htake] at he
      have hp := h.partition e (hsplit ▸ List.mem_append_left _ he)
      exact (EventId.before_iff hp).2 (.inl (hearlier e he))
    · rw [hdrop] at he
      have hp := h.partition e (List.mem_filter.1 he).1
      rcases (EventId.before_iff hp).1 hbefore with hlt | ⟨-, hlt⟩
      · exact UInt64.not_le.2 hlt (le_of_mem_since he)
      · exact absurd hlt (by simp)
  rw [h.range_eq hlimit rfl hstarts, hdrop]
  rfl

theorem Lists.eq_of_range (h : Lists keys p events) (hlimit : 0 < limit) {found : List LogEvent}
    (hrange : range keys (.first p) (.last p) limit = .ok ⟨found, none⟩) : events = found := by
  have hpage : pageSince limit events 0 = ⟨found, none⟩ :=
    Except.ok.inj ((h.range_since hlimit 0).symm.trans hrange)
  have hnone : following? limit events 0 = none := by simp [following?, hpage]
  have hall := (whole_of_following? hnone).2
  rw [hpage, since_zero] at hall
  exact hall.symm

end Log

namespace CommandLine

open Log

/-- From a timestamp on, each run of the log command starts from the one that the run before has
printed, and the last run has printed none. -/
def Followed (path : String) (keys : KeySpace) (p : UInt8) (limit : Nat) :
    UInt64 → List UInt64 → Prop :=
  Follows fun start => continuation? (run path keys (.log p start limit)).printed

variable {path : String} {keys : KeySpace} {p : UInt8} {limit : Nat} {events : List LogEvent}

theorem run_log_since (h : Lists keys p events) (hlimit : 0 < limit) (path : String)
    (start : UInt64) : run path keys (.log p start limit) =
      ⟨0, pageText p (pageSince limit events start), none⟩ :=
  run_log (h.range_since hlimit start)

theorem followed_eq (h : Lists keys p events) (hlimit : 0 < limit) (path : String) :
    Followed path keys p limit = Follows (following? limit events) := by
  have hnext : (fun start => continuation? (run path keys (.log p start limit)).printed) =
      following? limit events := by
    funext start
    rw [run_log_since h hlimit, continuation?_pageText]
    rfl
  rw [Followed, hnext]

/-- Runs from the beginning of a partition come to an end if and only if no timestamp has more
events than a page. -/
theorem exists_followed_iff (h : Lists keys p events) (hlimit : 0 < limit) :
    (∃ starts, Followed path keys p limit 0 starts) ↔ ∀ t, countAt t events ≤ limit := by
  rw [followed_eq h hlimit]
  constructor
  · rintro ⟨starts, hstarts⟩ t
    exact hstarts.countAt_le h.timely (by simp)
  · intro hcount
    exact exists_follows h.timely fun t _ => hcount t

theorem followed_once_iff (h : Lists keys p events) (hlimit : 0 < limit) :
    (∃ starts, Followed path keys p limit 0 starts ∧ onPages limit events starts = events) ↔
      CutsApart limit events := by
  rw [followed_eq h hlimit]
  constructor
  · rintro ⟨starts, hstarts, hall⟩
    have hcuts := hstarts.cutsApart h.timely (hall.trans (since_zero events).symm)
    rwa [since_zero] at hcuts
  · intro hcuts
    rw [← since_zero events] at hcuts
    obtain ⟨starts, hstarts, hall⟩ := exists_follows_once h.timely hlimit hcuts
    exact ⟨starts, hstarts, hall.trans (since_zero events)⟩

/-- Runs that start from the beginning of a partition and go on from each timestamp printed come to
an end if and only if no timestamp has more events than there is room for on a page. Together they
print every event exactly once, in order, if and only if no timestamp goes on over the end of a
page. -/
theorem continuations_print_once_iff (path : String) (hkeys : Sound keys) (p : UInt8)
    (hlimit : 0 < limit) :
    ∃ events, Lists keys p events ∧
      (∀ start, run path keys (.log p start limit) =
        ⟨0, pageText p (pageSince limit events start), none⟩) ∧
      ((∃ starts, Followed path keys p limit 0 starts) ↔ ∀ t, countAt t events ≤ limit) ∧
      ((∃ starts, Followed path keys p limit 0 starts ∧ onPages limit events starts = events) ↔
        CutsApart limit events) := by
  obtain ⟨events, h⟩ := hkeys.exists_lists p
  exact ⟨events, h, run_log_since h hlimit path, exists_followed_iff h hlimit,
    followed_once_iff h hlimit⟩

open Pagination in
/-- The first page ends between two timestamps, and the last one has room for what is left. -/
theorem continuations_print_once_pair :
    Sound (appended [5, 5, 7] .empty) ∧ 0 < 2 ∧
      ∃ starts, Followed "./data" (appended [5, 5, 7] .empty) 1 2 0 starts ∧
        onPages 2 [event 5 0, event 5 1, event 7 0] starts = [event 5 0, event 5 1, event 7 0] := by
  have hsound : Sound (appended [5, 5, 7] .empty) :=
    sound_of_forall_toList ((grows_appended _ _).wellFormed wellFormed_empty) (by decide +kernel)
  obtain ⟨events, h, -, -, honce⟩ :=
    continuations_print_once_iff "./data" hsound 1 (by decide : 0 < 2)
  have hrange : range (appended [5, 5, 7] .empty) (.first 1) (.last 1) 4 =
      .ok ⟨[event 5 0, event 5 1, event 7 0], none⟩ := range_of_scan (by decide +kernel)
  obtain rfl := h.eq_of_range (by decide) hrange
  have hfront : [event 5 0, event 5 1].length = 2 := rfl
  have hcuts : CutsApart 2 ([event 5 0, event 5 1] ++ [event 7 0]) :=
    (cutsApart_append hfront).2 ⟨by decide, cutsApart_of_length_le (by decide)⟩
  exact ⟨hsound, by decide, honce.2 hcuts⟩

open Pagination in
/-- Two events of one timestamp and pages of one event: every run tells to continue from the same
timestamp. -/
theorem continuation_never_ends :
    Sound (appended [5, 5] .empty) ∧
      ¬ ∃ starts, Followed "./data" (appended [5, 5] .empty) 1 1 0 starts := by
  have hsound : Sound (appended [5, 5] .empty) :=
    sound_of_forall_toList ((grows_appended _ _).wellFormed wellFormed_empty) (by decide +kernel)
  obtain ⟨events, h⟩ := hsound.exists_lists 1
  have hrange : range (appended [5, 5] .empty) (.first 1) (.last 1) 4 =
      .ok ⟨[event 5 0, event 5 1], none⟩ := range_of_scan (by decide +kernel)
  obtain rfl := h.eq_of_range (by decide) hrange
  refine ⟨hsound, fun hends => ?_⟩
  have hcount := (exists_followed_iff h (by decide)).1 hends 5
  exact absurd hcount (by decide)

end CommandLine
end Chronicle
