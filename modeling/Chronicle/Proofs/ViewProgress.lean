import Mathlib
import Chronicle.Proofs.ViewFolds

/-!
# Views over a run

Whatever happens between the syncs of a view, its fold is given every slot of the item once and in
order, however often it asks to stop and whatever other views and items do meanwhile. When the item
is deleted the view goes with it, and its next sync is a first one.
-/
namespace Chronicle

variable {σ : Type} {s t : Session} {item : ItemId} {name : Bytes} {v : View σ}

/-! ## Operations beside the views -/

namespace Txn

variable {α : Type} {key other : Bytes} {x : Option Bytes}

theorem keeps_set_of_ne (h : key ≠ other) (value : Bytes) (mark : UInt8) :
    (set key value mark).Keeps fun s => s.keys.stored? other = x :=
  keeps_set fun _ hs => (KeySpace.stored?_insert_of_ne _ _ h).trans hs

theorem keeps_delete_of_ne (h : key ≠ other) :
    (delete key).Keeps fun s => s.keys.stored? other = x :=
  keeps_delete fun _ hs => (KeySpace.stored?_erase_of_ne _ h).trans hs

end Txn

namespace Item

variable {x : Option Bytes} (n : Bytes)

theorem keeps_view_setVersion (version : Nat) :
    (setVersion item version).Keeps fun s => s.keys.stored? (Key.view item n) = x := by
  have hne : Key.version item ≠ Key.view item n := Key.sub_ne (x := .version) (y := .view n) nofun
  exact Txn.keeps_ite (Txn.keeps_set_of_ne hne _ _) (Txn.keeps_refuse _)

theorem keeps_view_recordSlot (slot : Nat) (id : EventId) (kind : UInt8) :
    (recordSlot item slot id kind).Keeps fun s => s.keys.stored? (Key.view item n) = x := by
  have hne : Key.slot item (UInt64.ofNat slot) ≠ Key.view item n :=
    Key.sub_ne (x := .slot _) (y := .view n) nofun
  refine (Txn.keeps_set_of_ne hne _ _).bind fun _ => ?_
  exact keeps_view_setVersion n (slot + 1)

theorem keeps_view_log (partition : UInt8) (event : LogEvent) :
    (Log.put partition event).Keeps fun s => s.keys.stored? (Key.view item n) = x := by
  refine (Txn.keeps_now fun s hs => hs).bind fun timestamp => ?_
  refine (Txn.keeps_query _).bind fun id => ?_
  refine (Txn.keeps_set_of_ne (Key.log_ne_sub id item (.view n)) _ _).bind fun _ => ?_
  exact Txn.keeps_pure id

theorem keeps_view_append (slot : Nat) (event : Event) :
    (append item slot event).Keeps fun s => s.keys.stored? (Key.view item n) = x :=
  keeps_append (keeps_view_log n) fun id => keeps_view_recordSlot n slot id event.kind

theorem keeps_view_putNext (event : Event) :
    (putNext item event).Keeps fun s => s.keys.stored? (Key.view item n) = x :=
  keeps_putNext fun slot => keeps_view_append n slot event

theorem keeps_view_put (event : Event) :
    (put item event).Keeps fun s => s.keys.stored? (Key.view item n) = x :=
  keeps_put (keeps_view_putNext n event)

theorem keeps_view_setAliases (xs : List ItemId) :
    (setList (Key.aliases item) xs).Keeps fun s => s.keys.stored? (Key.view item n) = x := by
  have hne : Key.aliases item ≠ Key.view item n := Key.sub_ne (x := .aliases) (y := .view n) nofun
  refine (Txn.keeps_lift _).bind fun bytes => ?_
  exact Txn.keeps_set_of_ne hne bytes 0

theorem keeps_view_addAlias (y : ItemId) :
    (addAlias item y).Keeps fun s => s.keys.stored? (Key.view item n) = x := by
  have hpoint := Txn.keeps_set_of_ne (x := x) (Key.pointer_ne_sub item y (.view n)) item.encode 0
  exact keeps_addAlias (keeps_view_put n _) (keeps_link hpoint (keeps_view_setAliases n))

theorem keeps_view_removeAlias (y : ItemId) :
    (removeAlias item y).Keeps fun s => s.keys.stored? (Key.view item n) = x := by
  have hpointer := Txn.keeps_delete_of_ne (x := x) (Key.pointer_ne_sub item y (.view n))
  exact keeps_removeAlias (keeps_view_put n _) (keeps_unlink hpointer (keeps_view_setAliases n))

/-- A new item has no views. -/
theorem keeps_view_create (hn : n ≠ []) :
    (create item).Keeps fun s => s.keys.stored? (Key.view item n) = x := by
  have hviews : (setList (Key.views item) ([] : List Bytes)).Keeps fun s =>
      s.keys.stored? (Key.view item n) = x := by
    refine (Txn.keeps_lift _).bind fun bytes => ?_
    exact Txn.keeps_set_of_ne (views_ne_view hn) bytes 0
  refine keeps_create (keeps_initIndex ?_ ?_ hviews) (keeps_view_append n 0 _)
  · exact keeps_view_setVersion n 0
  · exact keeps_view_setAliases n []

/-- The views that an item lists go with it. -/
theorem view_none_of_teardown {count : Nat} {y : Unit} (hlisted : ListsView s.keys item name)
    (hversion : version s.keys item = .ok count) (h : teardown item s = .ok y t) :
    t.keys.stored? (Key.view item name) = none := by
  obtain ⟨names, hviews, hmem⟩ := hlisted
  obtain ⟨xs, u, hquery, -⟩ := Txn.bind_eq_ok.mp h
  obtain ⟨haliases, rfl⟩ := Txn.query_eq_ok.mp hquery
  obtain ⟨u, hteardown, hnone, -⟩ :=
    teardown_of_lists haliases hviews (version?_of_version hversion)
  rw [h] at hteardown
  cases hteardown
  exact hnone (.view name) (.inr hmem)

end Item

/-! ## Syncs in a trace -/

namespace Step

/-- The events that a sync has given to its fold, if the step is a sync. -/
def passed (step : Step) : List Event :=
  match step.op with
  | .sync item name v initial =>
    match Item.sync item name v.traced (initial, []) ⟨step.before, .steady 0 0⟩ with
    | .ok (_, noted) _ => noted
    | .error _ _ => []
  | _ => []

/-- The syncs of a view of an item since the item was created, with one step more. -/
def nextSyncs (item : ItemId) (name : Bytes) (found : List Step) (step : Step) : List Step :=
  match step.op with
  | .sync a n _ _ => if a = item ∧ n = name then found ++ [step] else found
  | .delete a => if a = item then [] else found
  | _ => found

theorem nextSyncs_of_ne {step : Step} (h : ∀ a, step.op.item? = some a → a ≠ item)
    (found : List Step) : step.nextSyncs item name found = found := by
  obtain ⟨op, reply, before, after⟩ := step
  cases op with
  | sync a n w init => exact if_neg fun hsame => h a rfl hsame.1
  | delete a => exact if_neg (h a rfl)
  | _ => rfl

/-- The passed events of a sync are those that the traced view has noted. -/
theorem passed_eq {initial result : σ} {noted : List Event} {reply : Reply}
    (h : Item.sync item name v.traced (initial, []) s = .ok (result, noted) t) (after : KeySpace) :
    (Step.mk (.sync item name v initial) reply s.keys after).passed = noted := by
  have hagain := Item.timeless_sync item name v.traced (initial, []) h (.steady 0 0)
  unfold passed
  dsimp only
  rw [hagain]

end Step

/-- The syncs of a view of an item since the item was created. -/
def Run.syncs (item : ItemId) (name : Bytes) (trace : List Step) : List Step :=
  trace.foldl (fun found step => step.nextSyncs item name found) []

theorem Run.syncs_snoc (item : ItemId) (name : Bytes) (trace : List Step) (step : Step) :
    syncs item name (trace ++ [step]) = step.nextSyncs item name (syncs item name trace) := by
  simp [syncs]

/-- If the operation syncs the view of the item, it does so with the fold of `v`. -/
def Op.SyncsAs (item : ItemId) (name : Bytes) (v : View σ) (op : Op) : Prop :=
  ∀ (τ : Type) (w : View τ) (init : τ), op = .sync item name w init →
    ∃ initial, op = .sync item name v initial

/-! ## What the store says about a view -/

namespace Item

/-- What the store says about a view, given the syncs it has had and the events of the item. -/
def Followed (keys : KeySpace) (item : ItemId) (name : Bytes) (v : View σ)
    (stream : Option (List Event)) : List Step → Prop
  | [] => keys.stored? (Key.view item name) = none
  | first :: rest => ∃ initial events c state, first.op = .sync item name v initial ∧
      stream = some events ∧ ListsView keys item name ∧
      Progress keys item name v initial ((first :: rest).flatMap Step.passed) events c state

theorem Progress.extend {keys keys' : KeySpace} {initial state : σ} {passed events : List Event}
    {c : Checkpoint} (h : Progress keys item name v initial passed events c state)
    (hkey : keys'.stored? (Key.view item name) = keys.stored? (Key.view item name))
    (more : List Event) : Progress keys' item name v initial passed (events ++ more) c state where
  checkpointed := h.checkpointed.congr hkey
  le := h.le.trans (by simp)
  front := by rw [List.take_append_of_le_length h.le, h.front]
  folded := h.folded
  encoded := h.encoded

variable {a b : KeySpace} {stream stream' : Option (List Event)} {found : List Step}

/-- A step that leaves the view alone and takes no event away. -/
theorem Followed.keep (h : Followed a item name v stream found)
    (hkey : b.stored? (Key.view item name) = a.stored? (Key.view item name))
    (hlisted : ListsView a item name → ListsView b item name)
    (hstream : ∀ events, stream = some events → ∃ more, stream' = some (events ++ more)) :
    Followed b item name v stream' found := by
  cases found with
  | nil => exact hkey.trans h
  | cons first rest =>
    obtain ⟨initial, events, c, state, hop, rfl, hlist, hprogress⟩ := h
    obtain ⟨more, rfl⟩ := hstream events rfl
    exact ⟨initial, events ++ more, c, state, hop, rfl, hlisted hlist, hprogress.extend hkey more⟩

/-- A step that leaves all views alone. -/
theorem Followed.keep_views (h : Followed a item name v stream found)
    (hkeys : ∀ n, b.stored? (Key.view item n) = a.stored? (Key.view item n))
    (hstream : ∀ events, stream = some events → ∃ more, stream' = some (events ++ more)) :
    Followed b item name v stream' found :=
  h.keep (hkeys name) (fun hlisted => hlisted.congr (hkeys [])) hstream

/-- An item that does not exist has had no syncs. -/
theorem Followed.eq_nil (h : Followed a item name v none found) : found = [] := by
  cases found with
  | nil => rfl
  | cons first rest =>
    obtain ⟨_, _, _, _, _, hstream, _⟩ := h
    cases hstream

theorem Followed.create (hname : name ≠ []) (hholds : Holds s.keys item stream)
    (h : Followed s.keys item name v stream found) {y : Unit}
    (hcreate : create item s = .ok y t) : Followed t.keys item name v stream' found := by
  have hthere := hholds.isThere
  rw [(create_extends hcreate).1, Except.ok.injEq] at hthere
  obtain rfl : stream = none := by simpa using hthere.symm
  obtain rfl := h.eq_nil
  exact (keeps_view_create name hname).of_ok h hcreate

theorem Followed.delete (h : Followed s.keys item name v stream found) {y : Unit}
    (hdelete : delete item s = .ok y t) : Followed t.keys item name v stream' [] := by
  obtain ⟨slot, u, hput, hteardown⟩ := delete_eq_ok hdelete
  have hkeys : ∀ n, u.keys.stored? (Key.view item n) = s.keys.stored? (Key.view item n) := fun n =>
    (keeps_view_put n _).of_ok rfl hput
  cases found with
  | nil => exact (keeps_none_teardown _).of_ok ((hkeys name).trans h) hteardown
  | cons first rest =>
    obtain ⟨_, _, _, _, -, -, hlisted, -⟩ := h
    obtain ⟨-, id, hextends⟩ := put_extends hput
    exact view_none_of_teardown (hlisted.congr (hkeys [])) hextends.version hteardown

theorem exists_stream_of_sync {τ : Type} {n : Bytes} {w : View τ} {init result : τ}
    (hholds : Holds s.keys item stream) (hsync : sync item n w init s = .ok result t) :
    ∃ events, stream = some events := by
  obtain ⟨c, u, hstarts, -⟩ := sync_eq_ok.mp hsync
  obtain ⟨count, hversion⟩ := version_of_starts hstarts
  have hthere := hholds.isThere
  rw [(isThere_of_version hversion).1, Except.ok.injEq] at hthere
  exact Option.isSome_iff_exists.mp hthere.symm

/-- A sync of the view goes on from the sync before, or is the first. -/
theorem Followed.sync_spec {initial result : σ} {reply : Reply} (hdecode : v.DecodesEncoded)
    (hholds : Holds s.keys item stream) (h : Followed s.keys item name v stream found)
    (hsync : sync item name v initial s = .ok result t) {step : Step}
    (hstep : step = ⟨.sync item name v initial, reply, s.keys, t.keys⟩) :
    ∃ first rest start events c, found ++ [step] = first :: rest ∧
      first.op = .sync item name v start ∧ stream = some events ∧ ListsView t.keys item name ∧
      Progress t.keys item name v start ((first :: rest).flatMap Step.passed) events c result ∧
      (v.NeverBreaks → c.vsn.toNat = events.length) ∧
      ∀ c', checkpoint? s.keys item name = .ok (some c') → c'.vsn.toNat = events.length → t = s := by
  obtain ⟨events, rfl⟩ := exists_stream_of_sync hholds hsync
  obtain ⟨hversion, hstored, -⟩ := hholds
  have hname : name ≠ [] := by
    obtain ⟨c, u, hstarts, -⟩ := sync_eq_ok.mp hsync
    exact name_ne_nil_of_starts hstarts
  cases found with
  | nil =>
    obtain ⟨c, passed, hprogress, htraced, hall, hlisted⟩ :=
      sync_registers hdecode hversion hstored h hsync
    refine ⟨step, [], initial, events, c, rfl, by rw [hstep], rfl, hlisted, ?_, hall, ?_⟩
    · rwa [List.flatMap_singleton, hstep, Step.passed_eq htraced]
    · intro c' hc'
      rw [checkpoint?_of_none h hname hversion] at hc'
      cases hc'
  | cons first rest =>
    obtain ⟨start, _, c, state, hop, heq, hlisted, hprogress⟩ := h
    cases heq
    obtain ⟨c', more, hafter, htraced, hall, hsame⟩ :=
      sync_progress hdecode hversion hstored hprogress hsync
    have hpassed : ((first :: rest) ++ [step]).flatMap Step.passed =
        (first :: rest).flatMap Step.passed ++ more := by
      rw [List.flatMap_append, List.flatMap_singleton, hstep, Step.passed_eq htraced]
    rw [← hpassed] at hafter
    refine ⟨first, rest ++ [step], start, events, c', rfl, hop, rfl, hlisted.sync hsync, hafter,
      hall, fun c'' hc'' => ?_⟩
    rw [hprogress.checkpointed.checkpoint? hname hversion, Except.ok.injEq, Option.some.injEq] at hc''
    exact hc'' ▸ hsame

theorem Followed.sync {initial result : σ} {reply : Reply} (hdecode : v.DecodesEncoded)
    (hholds : Holds s.keys item stream) (h : Followed s.keys item name v stream found)
    (hsync : sync item name v initial s = .ok result t) :
    Followed t.keys item name v stream
      (found ++ [⟨.sync item name v initial, reply, s.keys, t.keys⟩]) := by
  obtain ⟨first, rest, start, events, c, hfound, hop, hstream, hlisted, hprogress, -⟩ :=
    h.sync_spec hdecode hholds hsync rfl
  rw [hfound]
  exact ⟨start, events, c, result, hop, hstream, hlisted, hprogress⟩

end Item

/-! ## Runs -/

namespace Run

variable {clock : Clock} {trace : List Step}

open Item (Followed Holds)

/-- One step about the item. -/
theorem followed_step {op : Op} {reply : Reply} {map : Streams} {found : List Step}
    (hname : name ≠ []) (hdecode : v.DecodesEncoded) (hsyncs : op.SyncsAs item name v)
    (hready : op.Ready s.keys) (hitem : op.item? = some item) (hop : op.run s = .ok reply t)
    (hholds : Holds s.keys item (map item)) (h : Followed s.keys item name v (map item) found) :
    Followed t.keys item name v (map.next ⟨op, reply, s.keys, t.keys⟩ item)
      (Step.nextSyncs item name found ⟨op, reply, s.keys, t.keys⟩) := by
  have hextend : ∀ {event : Event} {id : EventId},
      (∀ n x, s.keys.stored? (Key.view item n) = x → t.keys.stored? (Key.view item n) = x) →
      Followed t.keys item name v (map.extend item event id item) found := by
    intro event id hkeys
    refine h.keep_views (fun n => hkeys n _ rfl) fun events hevents => ?_
    rw [Streams.extend, Function.update_self, hevents]
    exact ⟨_, rfl⟩
  cases Op.done hready hitem hop with
  | create hcreate => exact h.create hname hholds hcreate
  | @put _ event _ hput => exact hextend fun n x hx => (Item.keeps_view_put n event).of_ok hx hput
  | @addAlias _ aliasId hadd =>
    exact hextend fun n x hx => (Item.keeps_view_addAlias n aliasId).of_ok hx hadd
  | @removeAlias _ aliasId hremove =>
    exact hextend fun n x hx => (Item.keeps_view_removeAlias n aliasId).of_ok hx hremove
  | delete hdelete => simpa [Step.nextSyncs] using h.delete hdelete
  | @sync _ _ n w init _ hsync =>
    by_cases hn : n = name
    · subst hn
      obtain ⟨initial, heq⟩ := hsyncs _ w init rfl
      cases heq
      simpa [Step.nextSyncs, Streams.next] using h.sync hdecode hholds hsync
    · have hkept := h.keep (Item.sync_others hsync (Ne.symm hn) hname)
        (fun hlisted => hlisted.sync hsync) fun events hevents => ⟨[], by simpa using hevents⟩
      simpa [Step.nextSyncs, Streams.next, hn] using hkept
  | found hthere hsame =>
    subst hsame
    rw [Streams.next_found (hholds.isSome hthere)]
    simpa [Step.nextSyncs] using h
  | ensure hthere hcreate =>
    rw [Streams.next_ensure (hholds.eq_none hthere)]
    exact h.create hname hholds hcreate
  | @mutate _ event _ hevent hput =>
    rw [Streams.next_mutate hevent]
    exact hextend fun n x hx => (Item.keeps_view_putNext n event).of_ok hx hput

theorem followed_of_reached (h : Reached clock trace s) (hclear : Clear trace item)
    (hname : name ≠ []) (hdecode : v.DecodesEncoded)
    (hsyncs : ∀ step ∈ trace, step.op.SyncsAs item name v) :
    Followed s.keys item name v (streams trace item) (syncs item name trace) := by
  induction h with
  | start => exact KeySpace.stored?_empty _
  | abort h hkeys hreadings htaken ih =>
    rw [hkeys]
    exact ih hclear hsyncs
  | @step trace s t op reply h hready hop ih =>
    have hclear' : Clear trace item := fun step hstep => hclear step (List.mem_append_left _ hstep)
    have hbefore := ih hclear' fun step hstep => hsyncs step (List.mem_append_left _ hstep)
    rw [streams_snoc, syncs_snoc]
    by_cases hitem : op.item? = some item
    · have hlast := hsyncs _ (List.mem_append_right _ List.mem_cons_self)
      exact followed_step hname hdecode hlast hready hitem hop (holds_of_reached h hclear') hbefore
    · have hne : ∀ a, op.item? = some a → a ≠ item := fun a ha heq => hitem (heq ▸ ha)
      have hapart : ∀ a, op.item? = some a → a.Apart item := fun a ha =>
        hclear.apart (List.mem_append_right _ List.mem_cons_self) ha (hne a ha)
      have hwithin := (Txn.Keeps.writes_of_ok op.writes hop).within
      rw [Streams.next_of_ne hne, Step.nextSyncs_of_ne hne]
      exact hbefore.keep_views (fun n => hwithin.frame (Op.not_touches_sub hapart (.view n)))
        fun events hevents => ⟨[], by simpa using hevents⟩

/-- A view without a name is never synced. -/
theorem syncs_nil_name (h : Reached clock trace s) : syncs item [] trace = [] := by
  induction h with
  | start => rfl
  | abort _ _ _ _ ih => exact ih
  | @step trace s t op reply h _ hop ih =>
    rw [syncs_snoc, ih]
    cases op with
    | sync a n w init =>
      obtain ⟨_, hsync, -⟩ := Txn.map_eq_ok.mp hop
      obtain ⟨c, u, hstarts, -⟩ := Item.sync_eq_ok.mp hsync
      simp [Step.nextSyncs, Item.name_ne_nil_of_starts hstarts]
    | delete a => simp [Step.nextSyncs]
    | _ => rfl

/-- How far a view is after one step more, and what is true of it if the step was its sync. -/
theorem progress_after {op : Op} {reply : Reply} {first : Step} {rest : List Step}
    (h : Reached clock trace s) (hready : op.Ready s.keys) (hop : op.run s = .ok reply t)
    (hclear : Clear (trace ++ [⟨op, reply, s.keys, t.keys⟩]) item) (hname : name ≠ [])
    (hdecode : v.DecodesEncoded)
    (hsyncs : ∀ step ∈ trace ++ [⟨op, reply, s.keys, t.keys⟩], step.op.SyncsAs item name v)
    (hfound : syncs item name (trace ++ [⟨op, reply, s.keys, t.keys⟩]) = first :: rest) :
    ∃ initial events c state, first.op = .sync item name v initial ∧
      streams (trace ++ [⟨op, reply, s.keys, t.keys⟩]) item = some events ∧
      Item.Progress t.keys item name v initial ((first :: rest).flatMap Step.passed) events c state ∧
      ∀ start, op = .sync item name v start → Item.sync item name v start s = .ok state t ∧
        (v.NeverBreaks → c.vsn.toNat = events.length) ∧
        Item.version s.keys item = .ok events.length ∧
        ∀ c', Item.checkpoint? s.keys item name = .ok (some c') →
          c'.vsn.toNat = events.length → t = s := by
  by_cases hsync : ∃ start, op = .sync item name v start
  · obtain ⟨start, rfl⟩ := hsync
    obtain ⟨state, hrun, -⟩ := Txn.map_eq_ok.mp hop
    have hclear' : Clear trace item := fun step hmem => hclear step (List.mem_append_left _ hmem)
    have hholds := holds_of_reached h hclear'
    have hfollowed := followed_of_reached h hclear' hname hdecode
      fun step hmem => hsyncs step (List.mem_append_left _ hmem)
    obtain ⟨first', rest', initial, events, c, hfound', hfirst, hstream, -, hprogress, hall, hsame⟩ :=
      hfollowed.sync_spec hdecode hholds hrun rfl
    rw [syncs_snoc, Step.nextSyncs] at hfound
    simp only [and_self, if_true] at hfound
    obtain ⟨rfl, rfl⟩ := List.cons.inj (hfound.symm.trans hfound')
    rw [hstream] at hholds
    refine ⟨initial, events, c, state, hfirst, ?_, hprogress, fun start' hstart => ?_⟩
    · rw [streams_snoc, ← hstream]
      rfl
    · cases hstart
      exact ⟨hrun, hall, hholds.1, hsame⟩
  · have hfollowed := followed_of_reached (h.step hready hop) hclear hname hdecode hsyncs
    rw [hfound] at hfollowed
    obtain ⟨initial, events, c, state, hfirst, hstream, -, hprogress⟩ := hfollowed
    exact ⟨initial, events, c, state, hfirst, hstream, hprogress,
      fun start hstart => absurd ⟨start, hstart⟩ hsync⟩

end Run

/-! ## The result -/

namespace Run

/-- At any step of a run, the syncs that a view has had so far have passed to its fold, taken
together, the events in the slots below its checkpoint, each once and in order, and the checkpoint
has the state that this fold makes of the initial value of the first sync. A sync answers this state.
If the fold never asks to stop, the sync has come to the end of the item and its state is that of a
fold from slot 0, and a sync that finds no new slot changes nothing in the store. -/
theorem views_fold_every_slot (txns : List (List Op)) (clock : Clock)
    (hclear : Clear (trace txns clock) item) (hdecode : v.DecodesEncoded)
    (hsyncs : ∀ ops ∈ txns, ∀ op ∈ ops, op.SyncsAs item name v)
    {before after rest : List Step} {step first : Step}
    (hsplit : trace txns clock = before ++ step :: after)
    (hfound : syncs item name (before ++ [step]) = first :: rest) :
    ∃ initial events c state, first.op = .sync item name v initial ∧
      streams (before ++ [step]) item = some events ∧
      Item.version step.after item = .ok events.length ∧ Item.Stored step.after item 0 events ∧
      Item.checkpoint? step.after item name = .ok (some c) ∧ c.vsn.toNat ≤ events.length ∧
      (first :: rest).flatMap Step.passed = events.take c.vsn.toNat ∧
      v.foldAll initial (events.take c.vsn.toNat) = .ok state ∧ v.encode state = .ok c.state ∧
      ∀ start, step.op = .sync item name v start →
        (∀ clock, Item.sync item name v start ⟨step.before, clock⟩ =
          .ok state ⟨step.after, clock⟩) ∧
        (v.NeverBreaks → c.vsn.toNat = events.length ∧
          ∃ last, Item.view step.after item 0 initial v.fold = .ok (state, last)) ∧
        ∀ c', Item.checkpoint? step.before item name = .ok (some c') →
          Item.version step.before item = .ok c'.vsn.toNat → step.after = step.before := by
  obtain ⟨u, w, hreached, hready, hop, hbefore, hafter⟩ := (reached txns clock).at_step hsplit
  obtain ⟨op, reply, keys, keys'⟩ := step
  obtain rfl : keys = u.keys := hbefore
  obtain rfl : keys' = w.keys := hafter
  have huntil := hreached.step hready hop
  have hsub : ∀ {other}, other ∈ before ++ [⟨op, reply, u.keys, w.keys⟩] → other ∈ trace txns clock :=
    fun hmem => by rw [hsplit, List.append_cons]; exact List.mem_append_left _ hmem
  have hclear' : Clear (before ++ [⟨op, reply, u.keys, w.keys⟩]) item := fun other hmem =>
    hclear other (hsub hmem)
  have huses : ∀ other ∈ before ++ [⟨op, reply, u.keys, w.keys⟩], other.op.SyncsAs item name v :=
    fun other hmem => forall_mem_trace (fun _ _ => nofun) hsyncs other (hsub hmem)
  have hname : name ≠ [] := by
    rintro rfl
    rw [syncs_nil_name huntil] at hfound
    cases hfound
  have hholds := holds_of_reached huntil hclear'
  obtain ⟨initial, events, c, state, hfirst, hstream, hprogress, hlast⟩ :=
    progress_after hreached hready hop hclear' hname hdecode huses hfound
  rw [hstream] at hholds
  obtain ⟨hversion, hstored, -⟩ := hholds
  have hfolded := hprogress.folded
  rw [hprogress.front] at hfolded
  refine ⟨initial, events, c, state, hfirst, hstream, hversion, hstored,
    hprogress.checkpointed.checkpoint? hname hversion, hprogress.le, hprogress.front, hfolded,
    hprogress.encoded, fun start hstart => ?_⟩
  obtain ⟨hrun, hall, hcount, hsame⟩ := hlast start hstart
  refine ⟨Item.timeless_sync item name v start hrun, fun hnever => ⟨hall hnever, ?_⟩,
    fun c' hc' hvsn => ?_⟩
  · rw [Item.view_eq_foldEvents hversion hstored (Nat.zero_le _)]
    rw [hall hnever, List.take_length] at hfolded
    exact Item.foldEvents_of_foldAll hnever hfolded 0 none
  · rw [hcount, Except.ok.injEq] at hvsn
    exact congrArg Session.keys (hsame c' hc' hvsn.symm)

/-- The number of events, stored in as many bytes. -/
def counting : View Nat where
  fold n _ := .ok (.next (n + 1))
  encode n := .ok (List.replicate n 0)
  decode bytes := .ok bytes.length

theorem counting_decodesEncoded : counting.DecodesEncoded := by
  rintro n bytes h
  cases h
  exact congrArg Except.ok List.length_replicate

/-- The second sync comes with another initial value, which it does not use. -/
def countedTwice (item : ItemId) : List (List Op) :=
  [[.create item, .sync item [110] counting 0],
    [.put item (Event.entity [] []), .put item (Event.entity [] []), .sync item [110] counting 7]]

theorem clear_countedTwice (item : ItemId) (clock : Clock) :
    Clear (trace (countedTwice item) clock) item :=
  clear_of_alone (by simp [countedTwice, Op.item?])

theorem syncsAs_countedTwice (item : ItemId) :
    ∀ ops ∈ countedTwice item, ∀ op ∈ ops, op.SyncsAs item [110] counting := by
  have hsync : ∀ start, (Op.sync item [110] counting start).SyncsAs item [110] counting := by
    intro start τ w init h
    exact ⟨start, rfl⟩
  have hother : ∀ op : Op, (∀ (τ : Type) (w : View τ) (init : τ), op ≠ .sync item [110] w init) →
      op.SyncsAs item [110] counting := fun op h τ w init heq => absurd heq (h τ w init)
  simp [countedTwice, hsync, hother]

theorem views_fold_every_slot_countedTwice :
    ∃ before first rest step initial events,
      trace (countedTwice ⟨1, [120]⟩) (.steady 5 1) = before ++ [step] ∧
      syncs ⟨1, [120]⟩ [110] (before ++ [step]) = first :: rest ∧
      first.op = .sync ⟨1, [120]⟩ [110] counting initial ∧ rest.length = 1 ∧ events.length = 3 ∧
      Item.Stored step.after ⟨1, [120]⟩ 0 events ∧ (first :: rest).flatMap Step.passed = events := by
  have hlast := List.dropLast_append_getLast (l := trace (countedTwice ⟨1, [120]⟩) (.steady 5 1))
    (List.ne_nil_of_length_pos (by decide +kernel))
  obtain ⟨first, rest, hfound⟩ := List.exists_cons_of_ne_nil (l := syncs ⟨1, [120]⟩ [110]
    (trace (countedTwice ⟨1, [120]⟩) (.steady 5 1))) (List.ne_nil_of_length_pos (by decide +kernel))
  have hpassed : ((first :: rest).flatMap Step.passed).length = 3 ∧ (first :: rest).length = 2 := by
    rw [← hfound]
    decide +kernel
  rw [← hlast] at hfound
  obtain ⟨initial, events, c, state, hfirst, hstream, -, hstored, -, -, htake, -⟩ :=
    views_fold_every_slot (countedTwice ⟨1, [120]⟩) (.steady 5 1) (clear_countedTwice _ _)
      counting_decodesEncoded (syncsAs_countedTwice _) hlast.symm hfound
  have hthree : events.length = 3 := by
    have hlength : (streams (trace (countedTwice ⟨1, [120]⟩) (.steady 5 1)) ⟨1, [120]⟩).map
        List.length = some 3 := by decide +kernel
    rw [hlast] at hstream
    simpa [hstream] using hlength
  refine ⟨_, first, rest, _, initial, events, hlast.symm, hfound, hfirst, by simpa using hpassed.2,
    hthree, hstored, ?_⟩
  rw [htake, List.take_eq_self_iff]
  have := hpassed.1
  rw [htake, List.length_take] at this
  omega

end Run
end Chronicle
