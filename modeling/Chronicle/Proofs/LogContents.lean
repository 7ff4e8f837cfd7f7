import Mathlib
import Chronicle.Proofs.Pagination

/-!
# Logs of events

A log is sound if every entry of it is an event, and then each of its partitions is a list of events
in the order of their identities.
-/
namespace Chronicle

/-- No entry is without its mark. -/
def KeySpace.Marked (keys : KeySpace) : Prop := ∀ key, keys.stored? key ≠ some []

theorem KeySpace.marked_of_forall_toList {keys : KeySpace}
    (h : ∀ entry ∈ keys.toList, entry.2 ≠ []) : keys.Marked :=
  fun _ hstored => h _ (mem_toList.2 hstored) rfl

namespace Log

/-- Every entry of the log is an event: it stands under an identity and begins with a mark. -/
structure Sound (keys : KeySpace) : Prop where
  wellFormed : WellFormed keys
  marked : ∀ id, keys.stored? (Key.log id) ≠ some []

variable {keys : KeySpace} {p : UInt8} {events : List LogEvent} {e : LogEvent}

theorem entry_injective : Function.Injective LogEvent.entry := by
  intro a b h
  obtain ⟨hkey, hstored⟩ := Prod.mk.inj h
  cases a
  cases b
  cases Key.log_injective hkey
  cases hstored
  rfl

theorem Lists.mem_iff (h : Lists keys p events) :
    e ∈ events ↔ Has keys e ∧ e.id.partition = p := by
  constructor
  · intro he
    have hp := h.partition e he
    exact ⟨(h.mem (Key.partition_prefix_log.2 hp)).2 (List.mem_map_of_mem he), hp⟩
  · rintro ⟨hhas, hp⟩
    have hmem := (h.mem (Key.partition_prefix_log.2 hp)).1 hhas
    exact (List.mem_map_of_injective entry_injective).1 hmem

theorem Sound.exists_lists (h : Sound keys) (p : UInt8) : ∃ events, Lists keys p events := by
  obtain ⟨entries, hentries⟩ := h.wellFormed.exists_entries (.first p)
  have hevent : ∀ entry ∈ entries, entry ∈ Set.range identified := by
    rintro ⟨id, stored⟩ hentry
    obtain ⟨hstored, -⟩ := hentries.mem.1 hentry
    cases stored with
    | nil => exact absurd hstored (h.marked id)
    | cons mark payload => exact ⟨⟨mark, id, payload⟩, rfl⟩
  obtain ⟨events, rfl⟩ := (Set.ext_iff.1 (Set.range_list_map identified) entries).2 hevent
  have hpartition : ∀ e ∈ events, e.id.partition = p := fun e he =>
    (hentries.mem.1 (mem_map_identified.2 he)).2.2
  have hsorted : events.Pairwise fun a b => a.id.Before b.id := by
    simpa [List.pairwise_map, identified] using hentries.sorted
  refine ⟨events, ⟨fun {key stored} hkey => ⟨fun hstored => ?_, fun hmem => ?_⟩, hsorted,
    hpartition⟩⟩
  · obtain ⟨id, rfl⟩ := h.wellFormed key stored hstored (head?_of_stem hkey)
    have hid : id.partition = p := Key.partition_prefix_log.1 hkey
    have hmem : (id, stored) ∈ events.map identified :=
      hentries.mem.2 ⟨hstored, hid ▸ EventId.not_before_first id, hid⟩
    obtain ⟨e, he, heq⟩ := List.mem_map.1 hmem
    cases heq
    exact List.mem_map_of_mem he
  · obtain ⟨e, he, heq⟩ := List.mem_map.1 hmem
    cases heq
    exact (hentries.mem.1 (mem_map_identified.2 he)).1

theorem sound_of_forall_toList (h : WellFormed keys)
    (hmarked : ∀ entry ∈ keys.toList, entry.2 ≠ []) : Sound keys :=
  ⟨h, fun _ hstored => hmarked _ (KeySpace.mem_toList.2 hstored) rfl⟩

/-- A partition has no more events than the whole log. -/
theorem Lists.length_le (h : Lists keys p events) : events.length ≤ eventCount keys := by
  have hentries : Entries keys (.first p) (events.map identified) := by
    have hscan := h.scan_eq rfl h.starts_first
    rw [List.drop_zero] at hscan
    have hmap : events.map LogEvent.entry = (events.map identified).map atKey :=
      (List.map_map (f := identified) (g := atKey)).symm
    exact hscan.trans hmap
  simpa using hentries.length_le

end Log
end Chronicle
