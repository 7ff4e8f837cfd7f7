import Mathlib
import Chronicle.Proofs.Histories
import Chronicle.Proofs.LogOrder
import Chronicle.Proofs.SlotLists

/-!
# The order of calls

While the clock does not go back, the calls that append to a partition at the time of the clock get
ascending identities, also with entries at chosen times and imports in between: the indexes below
one that has been taken are never free again. So the slots of an item lie in the order of the log.
-/
namespace Chronicle

variable {s₀ s t : Session} {ds : List Deed} {p : UInt8} {item : ItemId}

/-! ## Identities that calls have got -/

namespace Action

/-- Whether the caller chooses where in the log the entry goes. -/
def chosen : Action → Bool
  | .operate (.logAt _ _ _) | .mirror _ => true
  | .operate _ => false

theorem logs_of_not_chosen {a : Action} (h : a.chosen = false) (hready : a.Ready s.keys) :
    s.Logs (fun _ => True) (a.run.leaves s) := by
  cases a with
  | mirror e => cases h
  | operate op =>
    refine (Op.logs hready fun p time event heq => ?_).mono fun _ _ => trivial
    rw [heq] at h
    cases h

end Action

/-- The identity that a call of `Log.put` has got, if there was one. -/
def Deed.id? (d : Deed) : Option EventId :=
  if d.action.chosen then none else (Log.newIds d.before.keys d.after.keys).head?

/-- The identities that the calls have got in a partition, in the order of the calls. -/
def answered (p : UInt8) (ds : List Deed) : List EventId :=
  (ds.filterMap Deed.id?).filter fun id => id.partition = p

theorem Log.newIds_of_within (h : s.Within Key.OffLog t) : newIds s.keys t.keys = [] := by
  refine List.eq_nil_iff_forall_not_mem.mpr fun id hid => ?_
  obtain ⟨hnone, hsome⟩ := mem_newIds.mp hid
  exact hsome ((h.frame (Key.not_offLog_log id)).trans hnone)

namespace Action

variable {a : Action} {e : LogEvent}

theorem id?_of_within (h : s.Within Key.OffLog (a.run.leaves s)) : (a.deed s).id? = none := by
  rw [Deed.id?, before_deed, after_deed, Log.newIds_of_within h]
  exact ite_self none

theorem id?_of_chosen (h : a.chosen = true) : (a.deed s).id? = none := by
  rw [Deed.id?, action_deed, if_pos h]

theorem id?_of_puts (h : a.chosen = false) (hputs : s.Puts e (a.run.leaves s)) :
    (a.deed s).id? = some e.id := by
  rw [Deed.id?, action_deed, h, before_deed, after_deed]
  exact Log.head?_newIds hputs.adds

/-- A deed makes at most one call, which gets an identity that was free. -/
theorem id?_deed (h : a.chosen = false) (hready : a.Ready s.keys) :
    ((a.deed s).id? = none ∧ s.Within Key.OffLog (a.run.leaves s)) ∨
      ∃ e, (a.deed s).id? = some e.id ∧ s.Puts e (a.run.leaves s) := by
  rcases logs_of_not_chosen h hready with hwithin | ⟨e, -, hputs⟩
  · exact .inl ⟨id?_of_within hwithin, hwithin⟩
  · exact .inr ⟨e, id?_of_puts h hputs, hputs⟩

/-- What a call of the caller's own answers is the identity that it has got. -/
theorem reply_deed_log {event : LogEvent} {id : EventId} :
    ((operate (.log p event)).deed s).reply = some (.logged id) ↔
      ((operate (.log p event)).deed s).id? = some id := by
  cases hput : Log.put p event s with
  | ok got t =>
    have hrun : (operate (.log p event)).run s = .ok (.logged got) t :=
      Txn.map_eq_ok.mpr ⟨got, hput, rfl⟩
    have hid := id?_of_puts rfl (Txn.leaves_of_ok hrun ▸ Session.puts_of_put hput)
    rw [hid, deed_of_ok hrun, Option.some.injEq, Option.some.injEq, Reply.logged.injEq]
  | error fault t =>
    have hrun : (operate (.log p event)).run s = .error fault t := by
      change EStateM.map _ (Log.put p event) s = _
      rw [EStateM.map, hput]
    have hid := id?_of_within (Txn.leaves_of_error hrun ▸ Log.within_of_put_error hput)
    rw [hid, deed, hrun]
    exact iff_of_false (Option.some_ne_none _).symm (Option.some_ne_none _).symm

end Action

theorem answered_snoc_of_ne {d : Deed} (h : ∀ id, d.id? = some id → id.partition ≠ p) :
    answered p (ds ++ [d]) = answered p ds := by
  rw [answered, List.filterMap_append, List.filter_append]
  cases hid : d.id? with
  | none => rw [List.filterMap_cons_none hid]; exact List.append_nil _
  | some id =>
    rw [List.filterMap_cons_some hid, List.filterMap_nil,
      List.filter_cons_of_neg (by simpa using h id hid)]
    exact List.append_nil _

theorem answered_snoc {d : Deed} {id : EventId} (h : d.id? = some id) :
    answered id.partition (ds ++ [d]) = answered id.partition ds ++ [id] := by
  rw [answered, List.filterMap_append, List.filter_append, List.filterMap_cons_some h,
    List.filterMap_nil, List.filter_cons_of_pos (by simp)]
  rfl

theorem partition_of_mem_answered {id : EventId} (h : id ∈ answered p ds) : id.partition = p := by
  simpa using (List.mem_filter.mp h).2

/-! ## The order -/

theorem Session.Within.reading_le {F : Bytes → Prop} (h : s.Within F t)
    (hclock : Monotone s.clock.readings) : s.clock.reading ≤ t.clock.reading :=
  Session.reading_le hclock h.readings h.taken

/-- The log of `t` has every identity that the log of `s` has. -/
def Session.Retains (s t : Session) : Prop :=
  ∀ id, s.keys.stored? (Key.log id) ≠ none → t.keys.stored? (Key.log id) ≠ none

theorem Session.Within.retains {F : Bytes → Prop} (h : s.Within F t) : s.Retains t := by
  intro id hid
  obtain ⟨stored, hstored⟩ := Option.ne_none_iff_exists'.mp hid
  exact h.log hstored ▸ Option.some_ne_none stored

/-- What is in the log stays there, though an import may change it. -/
theorem Action.retains (a : Action) (s : Session) : s.Retains (a.run.leaves s) := by
  cases a with
  | operate op => exact (Txn.Keeps.writes_leaves op.writes s).within.retains
  | mirror e =>
    rw [leaves_mirror]
    exact fun id hid => KeySpace.stored?_withLog_ne_none _ (.inl hid)

/-- The identities are those of entries of the log that have been appended in this order. -/
def Ascending (ids : List EventId) (s : Session) : Prop :=
  ∃ events : List LogEvent, events.map LogEvent.id = ids ∧ Logging.InOrder events s ∧
    ∀ e ∈ events, s.keys.stored? (Key.log e.id) ≠ none

namespace Ascending

variable {ids : List EventId}

theorem nil (s : Session) : Ascending [] s := ⟨[], rfl, ⟨.nil, nofun, nofun⟩, nofun⟩

theorem pairwise (h : Ascending ids s) : ids.Pairwise EventId.Before := by
  obtain ⟨events, rfl, hordered, -⟩ := h
  exact List.pairwise_map.mpr hordered.sorted

theorem later (h : Ascending ids s) (hclock : s.clock.reading ≤ t.clock.reading)
    (hlog : s.Retains t) : Ascending ids t := by
  obtain ⟨events, hids, hordered, hstored⟩ := h
  exact ⟨events, hids, hordered.later hclock hlog, fun e he => hlog e.id (hstored e he)⟩

theorem within {F : Bytes → Prop} (h : Ascending ids s) (hclock : Monotone s.clock.readings)
    (hwithin : s.Within F t) : Ascending ids t :=
  h.later (hwithin.reading_le hclock) hwithin.retains

/-- The identity that a call gets comes last. -/
theorem puts {e : LogEvent} (h : Ascending ids s) (hclock : Monotone s.clock.readings)
    (hputs : s.Puts e t) (hids : ∀ id ∈ ids, id.partition = e.id.partition) :
    Ascending (ids ++ [e.id]) t := by
  obtain ⟨u, v, hu, hput, hv⟩ := hputs
  have hclock_u : Monotone u.clock.readings := hu.readings ▸ hclock
  have hentered : e.Entered u v := Log.put_entered hput
  have hwithin := (Txn.Keeps.writes_of_ok
    (Log.writes_put (F := fun _ => True) e.id.partition e fun _ => trivial) hput).within
  obtain ⟨events, rfl, hordered, hstored⟩ := h.within hclock hu
  have happend := hordered.append hentered (hwithin.reading_le hclock_u)
    (fun a ha => hids a.id (List.mem_map_of_mem ha)) hstored
  refine within ⟨events ++ [e], by simp, happend, fun a ha => ?_⟩ (hwithin.readings ▸ hclock_u) hv
  rcases List.mem_append.mp ha with ha | ha
  · exact hwithin.retains a.id (hstored a ha)
  · rw [List.mem_singleton.mp ha, hentered.adds.entry]
    exact Option.some_ne_none _

end Ascending

theorem Journal.ascending (h : Journal s₀ ds s) (hclock : Monotone s₀.clock.readings) (p : UInt8) :
    Ascending (answered p ds) s := by
  induction h with
  | start => exact .nil s₀
  | abort h hkeys hreadings htaken ih =>
    refine ih.later (Session.reading_le (h.clock.1 ▸ hclock) hreadings htaken) fun id hid => ?_
    rwa [hkeys]
  | @deed ds s h a hready ih =>
    have hclock_s : Monotone s.clock.readings := h.clock.1 ▸ hclock
    obtain ⟨hreadings, htaken⟩ := a.clock_leaves s
    -- without a call for the partition the log only moves on
    have hlater : (∀ id, (a.deed s).id? = some id → id.partition ≠ p) →
        Ascending (answered p (ds ++ [a.deed s])) (a.run.leaves s) := fun hid => by
      rw [answered_snoc_of_ne hid]
      exact ih.later (Session.reading_le hclock_s hreadings htaken) (a.retains s)
    cases hchosen : a.chosen with
    | true =>
      exact hlater fun id hid => by rw [Action.id?_of_chosen hchosen] at hid; cases hid
    | false =>
      rcases Action.id?_deed hchosen hready with ⟨hnone, -⟩ | ⟨e, hid, hputs⟩
      · exact hlater fun id hid => by rw [hnone] at hid; cases hid
      · by_cases hp : e.id.partition = p
        · subst hp
          rw [answered_snoc hid]
          exact ih.puts hclock_s hputs fun id hid => partition_of_mem_answered hid
        · refine hlater fun id hid' => ?_
          rwa [← Option.some.inj (hid.symm.trans hid')]

/-! ## Slots -/

/-- What the deed is about keeps apart from the item. -/
def Deed.Clear (d : Deed) (item : ItemId) : Prop :=
  ∀ a, d.action.item? = some a → ¬ a.Continues item ∧ ¬ item.Continues a

namespace Item

variable {stream : Option (List Event)}

/-- The slots of the item point at identities that calls have got, in the order of the calls. -/
def InCallOrder (item : ItemId) (ds : List Deed) (s : Session) : Prop :=
  ∃ stream, Slotted s.keys item stream ∧
    ((stream.getD []).map Event.id).Sublist (ds.filterMap Deed.id?) ∧
    ∀ event ∈ stream.getD [], item.Owns event.id

theorem Slotted.mirror (h : Slotted s.keys item stream) (e : LogEvent) :
    Slotted ((Action.mirror e).run.leaves s).keys item stream := by
  rw [Action.leaves_mirror]
  exact h.congr (s.keys.stored?_withLog_sub [e] item .version)
    fun n => s.keys.stored?_withLog_sub [e] item (.slot n)

/-- More calls, none of which has to do with the item. -/
theorem Slotted.inCallOrder {d : Deed} (h : Slotted t.keys item stream)
    (hsub : ((stream.getD []).map Event.id).Sublist (ds.filterMap Deed.id?))
    (howns : ∀ event ∈ stream.getD [], item.Owns event.id) : InCallOrder item (ds ++ [d]) t := by
  refine ⟨stream, h, ?_, howns⟩
  rw [List.filterMap_append]
  exact hsub.trans (List.sublist_append_left _ _)

/-- The identity of the event that an operation adds is that of its call. -/
theorem Turned.inCallOrder {d : Deed} (h : Turned item s t stream)
    (hsub : ((stream.getD []).map Event.id).Sublist (ds.filterMap Deed.id?))
    (howns : ∀ event ∈ stream.getD [], item.Owns event.id)
    (hcall : ∀ e, s.Puts e t → d.id? = some e.id) : InCallOrder item (ds ++ [d]) t := by
  cases h with
  | same hslotted => exact hslotted.inCallOrder hsub howns
  | ends hslotted => exact hslotted.inCallOrder (List.nil_sublist _) nofun
  | grows hgrows =>
    obtain ⟨e, hid, hputs⟩ := hgrows.puts
    refine ⟨_, hgrows.slotted, ?_, fun event hevent => ?_⟩
    · rw [List.filterMap_append, List.filterMap_cons_some (hcall e hputs), hid, Option.getD_some,
        List.map_append]
      exact hsub.append (List.Sublist.refl _)
    · rcases List.mem_append.mp hevent with hevent | hevent
      · exact howns event hevent
      · rw [List.mem_singleton.mp hevent]
        exact hgrows.owns

theorem InCallOrder.deed {a : Action} (h : InCallOrder item ds s) (hready : a.Ready s.keys)
    (hreply : (a.deed s).reply ≠ none) (hclear : (a.deed s).Clear item) :
    InCallOrder item (ds ++ [a.deed s]) (a.run.leaves s) := by
  obtain ⟨stream, hslotted, hsub, howns⟩ := h
  cases a with
  | mirror e => exact (hslotted.mirror e).inCallOrder hsub howns
  | operate op =>
    obtain ⟨reply, hreply⟩ := Option.ne_none_iff_exists'.mp hreply
    obtain ⟨t, hrun⟩ := Action.reply_deed_eq_some.mp hreply
    have hleaves : (Action.operate op).run.leaves s = t := Txn.leaves_of_ok hrun
    rw [hleaves]
    by_cases hitem : op.item? = some item
    · refine (Op.turned hready hitem hrun hslotted).inCallOrder hsub howns fun e hputs => ?_
      have hchosen : (Action.operate op).chosen = false := by
        cases op <;> first | rfl | cases hitem
      exact Action.id?_of_puts hchosen (hleaves ▸ hputs)
    · refine (hslotted.of_apart (fun other hother => ?_) hrun).inCallOrder hsub howns
      rw [Deed.Clear, Action.action_deed] at hclear
      obtain ⟨hoc, hco⟩ := hclear other hother
      exact ItemId.apart_of_not_continues (fun heq => hitem (heq ▸ hother)) hco hoc

/-- The identities of one item are of one partition. -/
theorem sublist_answered {events : List Event} {event : Event}
    (hsub : (events.map Event.id).Sublist (ds.filterMap Deed.id?))
    (howns : ∀ event ∈ events, item.Owns event.id) (hevent : event ∈ events) :
    (events.map Event.id).Sublist (answered event.id.partition ds) := by
  have hpartition : ∀ id ∈ events.map Event.id, id.partition = event.id.partition := by
    intro id hid
    obtain ⟨other, hother, rfl⟩ := List.mem_map.mp hid
    exact UInt8.toNat_inj.mp ((howns other hother).trans (howns event hevent).symm)
  have hall := List.filter_eq_self.mpr fun id hid => decide_eq_true (hpartition id hid)
  rw [← hall]
  exact hsub.filter _

/-- Slots lie in the order of the log where calls do. -/
theorem InCallOrder.slots (h : InCallOrder item ds s) (hlive : isThere s.keys item = .ok true)
    (hcalls : ∀ p, (answered p ds).Pairwise EventId.Before) :
    ∃ n, version s.keys item = .ok n ∧ ∀ i j : UInt64, i < j → j.toNat < n → ∃ a x b y,
      s.keys.stored? (Key.slot item i) = some (a :: Key.log x) ∧
      s.keys.stored? (Key.slot item j) = some (b :: Key.log y) ∧ x.Before y := by
  obtain ⟨stream, hslotted, hsub, howns⟩ := h
  cases stream with
  | none =>
    rw [isThere_of_version?_none hslotted.version?] at hlive
    cases hlive
  | some events =>
    refine ⟨events.length, hslotted.version, fun i j hij hj => ?_⟩
    have hlt := UInt64.lt_iff_toNat_lt.mp hij
    have hordered := (hcalls _).sublist (sublist_answered hsub howns (List.getElem_mem hj))
    exact ⟨_, _, _, _, hslotted.slot_of_lt (hlt.trans hj), hslotted.slot_of_lt hj,
      List.pairwise_iff_getElem.mp (List.pairwise_map.mp hordered) _ _ _ hj hlt⟩

end Item

namespace Journal

theorem inCallOrder (h : Journal s₀ ds s) (hempty : s₀.keys = .empty)
    (hreply : ∀ d ∈ ds, d.reply ≠ none) (hclear : ∀ d ∈ ds, d.Clear item) :
    Item.InCallOrder item ds s := by
  induction h with
  | start => exact ⟨none, hempty ▸ Item.slotted_empty item, List.nil_sublist _, nofun⟩
  | abort h hkeys hreadings htaken ih =>
    obtain ⟨stream, hslotted, hrest⟩ := ih hreply hclear
    exact ⟨stream, hkeys ▸ hslotted, hrest⟩
  | @deed ds s h a hready ih =>
    have hlast : a.deed s ∈ ds ++ [a.deed s] := List.mem_append_right _ List.mem_cons_self
    exact (ih (fun d hd => hreply d (List.mem_append_left _ hd))
      fun d hd => hclear d (List.mem_append_left _ hd)).deed hready (hreply _ hlast)
        (hclear _ hlast)

theorem exists_deed {d : Deed} (h : Journal s₀ ds s) (hd : d ∈ ds) :
    ∃ a u, a.Ready u.keys ∧ d = Action.deed a u := by
  induction h with
  | start => cases hd
  | abort h hkeys hreadings htaken ih => exact ih hd
  | deed h a hready ih =>
    rcases List.mem_append.mp hd with hd | hd
    · exact ih hd
    · exact ⟨a, _, hready, List.mem_singleton.mp hd⟩

end Journal

/-! ## The result -/

/-- In each partition the calls of `Log.put`, those that operations make included, get ascending
identities while the clock does not go back. Each of them was free, and all of this holds with
entries at chosen times and imports in between. So the slots of an item, where no failure has been
committed and no other name reaches into its index, lie in the order of the log. -/
theorem calls_in_order {s : Session} (hclock : Monotone s.clock.readings) (txns : List Transaction) :
    (∀ p, (answered p (history txns s)).Pairwise EventId.Before) ∧
    (∀ d ∈ history txns s, d.action.chosen = false →
      (d.id? = none ∧ d.before.Within Key.OffLog d.after) ∨
        ∃ e, d.id? = some e.id ∧ d.before.keys.stored? (Key.log e.id) = none ∧
          d.before.Puts e d.after) ∧
    (∀ d ∈ history txns s, ∀ p event id, d.action = .operate (.log p event) →
      (d.reply = some (.logged id) ↔ d.id? = some id)) ∧
    (s.keys = .empty → (∀ d ∈ history txns s, d.reply ≠ none) →
      ∀ item, (∀ d ∈ history txns s, d.Clear item) →
        Item.isThere (s.passed txns).keys item = .ok true →
          ∃ n, Item.version (s.passed txns).keys item = .ok n ∧
            ∀ i j : UInt64, i < j → j.toNat < n → ∃ a x b y,
              (s.passed txns).keys.stored? (Key.slot item i) = some (a :: Key.log x) ∧
              (s.passed txns).keys.stored? (Key.slot item j) = some (b :: Key.log y) ∧
              x.Before y) := by
  have hjournal := journal txns s
  have hcalls : ∀ p, (answered p (history txns s)).Pairwise EventId.Before := fun p =>
    (hjournal.ascending hclock p).pairwise
  refine ⟨hcalls, fun d hd hchosen => ?_, fun d hd p event id haction => ?_,
    fun hempty hreply item hclear hlive =>
      (hjournal.inCallOrder hempty hreply hclear).slots hlive hcalls⟩
  · obtain ⟨a, u, hready, rfl⟩ := hjournal.exists_deed hd
    rw [Action.action_deed] at hchosen
    rw [Action.before_deed, Action.after_deed]
    rcases Action.id?_deed hchosen hready with hnone | ⟨e, hid, hputs⟩
    · exact .inl hnone
    · exact .inr ⟨e, hid, hputs.adds.free.1, hputs⟩
  · obtain ⟨a, u, hready, rfl⟩ := hjournal.exists_deed hd
    rw [Action.action_deed] at haction
    subst haction
    exact Action.reply_deed_log

/-- While the clock stands still, entries come in before the index that the put of the second
transaction takes and after it. The third transaction is aborted. -/
def standstill (item : ItemId) : List Transaction :=
  [⟨[.operate (.create item), .operate (.log 1 (.new 7 []))], true⟩,
    ⟨[.operate (.logAt 1 5 (.new 7 [])), .mirror ⟨7, ⟨1, 5, 4⟩, []⟩,
      .operate (.put item (.entity [] []))], true⟩,
    ⟨[.operate (.put item (.entity [] []))], false⟩,
    ⟨[.operate (.put item (.entity [] [])), .operate (.log 1 (.new 7 []))], true⟩]

theorem calls_in_order_standstill :
    answered 1 (history (standstill ⟨1, [120]⟩) (.start (.steady 5 0))) =
        [⟨1, 5, 0⟩, ⟨1, 5, 1⟩, ⟨1, 5, 3⟩, ⟨1, 5, 5⟩, ⟨1, 5, 6⟩] ∧
      (answered 1 (history (standstill ⟨1, [120]⟩) (.start (.steady 5 0)))).Pairwise
        EventId.Before ∧
      ∃ a x b y, ((Session.start (.steady 5 0)).passed (standstill ⟨1, [120]⟩)).keys.stored?
          (Key.slot ⟨1, [120]⟩ 0) = some (a :: Key.log x) ∧
        ((Session.start (.steady 5 0)).passed (standstill ⟨1, [120]⟩)).keys.stored?
          (Key.slot ⟨1, [120]⟩ 2) = some (b :: Key.log y) ∧ x.Before y := by
  have hclock : Monotone (Session.start (.steady 5 0)).clock.readings :=
    fun _ _ h => Nat.add_le_add_left (Nat.mul_le_mul_right 0 h) 5
  have hall : ((history (standstill ⟨1, [120]⟩) (.start (.steady 5 0))).all fun d =>
      d.reply.isSome && d.action.item?.all (· = ⟨1, [120]⟩)) = true := by decide +kernel
  have hdeeds := fun d hd => (Bool.and_eq_true _ _).mp (List.all_eq_true.mp hall d hd)
  have hreply : ∀ d ∈ history (standstill ⟨1, [120]⟩) (.start (.steady 5 0)), d.reply ≠ none :=
    fun d hd => Option.isSome_iff_ne_none.mp (hdeeds d hd).1
  have hclear : ∀ d ∈ history (standstill ⟨1, [120]⟩) (.start (.steady 5 0)),
      d.Clear ⟨1, [120]⟩ := by
    intro d hd a ha
    have hsame := (hdeeds d hd).2
    rw [ha, Option.all_some, decide_eq_true_eq] at hsame
    rw [hsame]
    exact ⟨ItemId.not_continues_self _, ItemId.not_continues_self _⟩
  have hlive : Item.isThere ((Session.start (.steady 5 0)).passed (standstill ⟨1, [120]⟩)).keys
      ⟨1, [120]⟩ = .ok true := Outcome.eq_ok_of_toOption (by decide +kernel)
  have hthree : Item.version ((Session.start (.steady 5 0)).passed (standstill ⟨1, [120]⟩)).keys
      ⟨1, [120]⟩ = .ok 3 := Outcome.eq_ok_of_toOption (by decide +kernel)
  obtain ⟨hcalls, -, -, hslots⟩ := calls_in_order hclock (standstill ⟨1, [120]⟩)
  obtain ⟨n, hversion, hslots⟩ := hslots rfl hreply ⟨1, [120]⟩ hclear hlive
  obtain rfl : 3 = n := Except.ok.inj (hthree.symm.trans hversion)
  exact ⟨by decide +kernel, hcalls 1, hslots 0 2 (by decide) (by decide)⟩

end Chronicle
