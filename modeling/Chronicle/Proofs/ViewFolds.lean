import Mathlib
import Chronicle.Proofs.Streams
import Chronicle.Proofs.Success

/-!
# Folds of views

A sync folds a front of the events that its view has not seen, and moves the checkpoint past it. The
front is all of them unless the fold asks to stop. To say which events a sync has given to its fold,
the same sync is run with a view that notes them.
-/
namespace Chronicle

variable {σ : Type}

/-! ## Transactions that do not look at the clock -/

namespace Txn

variable {α β : Type}

def Timeless (m : Txn α) : Prop :=
  ∀ ⦃keys clock a t⦄, m ⟨keys, clock⟩ = .ok a t → ∀ clock', m ⟨keys, clock'⟩ = .ok a ⟨t.keys, clock'⟩

theorem timeless_pure (a : α) : (pure a : Txn α).Timeless := by
  intro keys clock b t h clock'
  obtain ⟨rfl, rfl⟩ := pure_eq_ok.mp h
  rfl

theorem timeless_query (read : KeySpace → Outcome α) : (query read).Timeless := by
  intro keys clock a t h clock'
  obtain ⟨hread, rfl⟩ := query_eq_ok.mp h
  exact query_eq_ok.mpr ⟨hread, rfl⟩

theorem timeless_lift (outcome : Outcome α) : (lift outcome).Timeless := timeless_query _

theorem timeless_set (key value : Bytes) (mark : UInt8) : (set key value mark).Timeless := by
  intro keys clock a t h clock'
  obtain ⟨hkey, rfl⟩ := set_eq_ok.mp h
  exact set_eq_ok.mpr ⟨hkey, rfl⟩

theorem Timeless.bind {m : Txn α} {f : α → Txn β} (hm : m.Timeless) (hf : ∀ a, (f a).Timeless) :
    (m >>= f).Timeless := by
  intro keys clock b t h clock'
  obtain ⟨a, u, hfirst, hrest⟩ := bind_eq_ok.mp h
  exact bind_eq_ok.mpr ⟨a, _, hm hfirst clock', hf a hrest clock'⟩

end Txn

/-! ## Views -/

namespace View

/-- The fold over all events in order. Where it asks to stop, it is asked again with the next. -/
def foldAll (v : View σ) : σ → List Event → Outcome σ
  | state, [] => .ok state
  | state, event :: events => do
    match ← v.fold state event with
    | .next state => foldAll v state events
    | .stop state => foldAll v state events

def NeverBreaks (v : View σ) : Prop := ∀ state event last, v.fold state event ≠ .ok (.stop last)

/-- What is stored can be read again. -/
def DecodesEncoded (v : View σ) : Prop :=
  ∀ state bytes, v.encode state = .ok bytes → v.decode bytes = .ok state

/-- The view that notes the events its fold is given. It stores what the view stores. -/
def traced (v : View σ) : View (σ × List Event) where
  fold s event := do
    match ← v.fold s.1 event with
    | .next state => return .next (state, s.2 ++ [event])
    | .stop state => return .stop (state, s.2 ++ [event])
  encode s := v.encode s.1
  decode bytes := do return (← v.decode bytes, [])

theorem foldAll_append (v : View σ) (state : σ) (xs ys : List Event) :
    v.foldAll state (xs ++ ys) = v.foldAll state xs >>= fun state => v.foldAll state ys := by
  induction xs generalizing state with
  | nil => rfl
  | cons event xs ih =>
    rw [List.cons_append, foldAll, foldAll]
    cases v.fold state event with
    | error fault => rfl
    | ok next =>
      cases next with
      | next state => exact ih state
      | stop state => exact ih state

end View

namespace Item

open View (foldAll)

section Visit

variable {v : View σ} {state : σ} {event : Event} {found : Visit σ} (noted : List Event)
  (last : Option Nat) (slot : Nat)

theorem foldEvents_next {events : List Event} {next : σ} (h : v.fold state event = .ok (.next next)) :
    foldEvents (view.visit v.fold) (event :: events) slot (state, last) =
      foldEvents (view.visit v.fold) events (slot + 1) (next, some slot) := by
  simp [foldEvents, view.visit, h, bind, Except.bind, pure, Except.pure]

theorem foldEvents_stop {events : List Event} {stopped : σ}
    (h : v.fold state event = .ok (.stop stopped)) :
    foldEvents (view.visit v.fold) (event :: events) slot (state, last) =
      .ok (stopped, some slot) := by
  simp [foldEvents, view.visit, h, bind, Except.bind, pure, Except.pure]

theorem traced_next {next : σ} (h : v.fold state event = .ok (.next next)) :
    v.traced.fold (state, noted) event = .ok (.next (next, noted ++ [event])) := by
  simp [View.traced, h, bind, Except.bind, pure, Except.pure]

theorem traced_stop {stopped : σ} (h : v.fold state event = .ok (.stop stopped)) :
    v.traced.fold (state, noted) event = .ok (.stop (stopped, noted ++ [event])) := by
  simp [View.traced, h, bind, Except.bind, pure, Except.pure]

end Visit

/-- The fold over slots takes a front of the events, all of them if it never asks to stop. -/
theorem foldEvents_view {v : View σ} {events : List Event} {slot : Nat} {state result : σ}
    {last visited : Option Nat}
    (h : foldEvents (view.visit v.fold) events slot (state, last) = .ok (result, visited)) :
    ∃ n ≤ events.length, v.foldAll state (events.take n) = .ok result ∧
      visited = (if n = 0 then last else some (slot + n - 1)) ∧
      (v.NeverBreaks → n = events.length) ∧
      ∀ noted, foldEvents (view.visit v.traced.fold) events slot ((state, noted), last) =
        .ok ((result, noted ++ events.take n), visited) := by
  induction events generalizing slot state last with
  | nil =>
    cases h
    exact ⟨0, le_rfl, rfl, rfl, fun _ => rfl, fun noted => by simp [foldEvents]⟩
  | cons event events ih =>
    obtain ⟨visit, hvisit, -⟩ := Outcome.bind_eq_ok.mp h
    obtain ⟨found, hfold, -⟩ := Outcome.bind_eq_ok.mp hvisit
    cases found with
    | stop stopped =>
      rw [foldEvents_stop last slot hfold] at h
      cases h
      refine ⟨1, by simp, by simp [foldAll, hfold, bind, Except.bind], by simp, ?_, fun noted => ?_⟩
      · exact fun hnever => absurd hfold (hnever _ _ _)
      · rw [foldEvents_stop last slot (traced_stop noted hfold)]
        simp
    | next next =>
      rw [foldEvents_next last slot hfold] at h
      obtain ⟨n, hn, hstate, hlast, hall, htraced⟩ := ih h
      refine ⟨n + 1, by simpa using hn, ?_, ?_, fun hnever => by simp [hall hnever], fun noted => ?_⟩
      · simpa [foldAll, hfold, bind, Except.bind] using hstate
      · by_cases hzero : n = 0
        · simp [hlast, hzero]
        · simp [hlast, hzero]
      · rw [foldEvents_next last slot (traced_next noted hfold), htraced]
        simp

/-- Without a stop, the fold over slots is the fold over all events. -/
theorem foldEvents_of_foldAll {v : View σ} (hnever : v.NeverBreaks) {events : List Event}
    {state result : σ} (h : v.foldAll state events = .ok result) (slot : Nat) (last : Option Nat) :
    ∃ visited, foldEvents (view.visit v.fold) events slot (state, last) = .ok (result, visited) := by
  induction events generalizing slot state last with
  | nil =>
    cases h
    exact ⟨last, rfl⟩
  | cons event events ih =>
    rw [foldAll] at h
    obtain ⟨found, hfold, h⟩ := Outcome.bind_eq_ok.mp h
    cases found with
    | stop stopped => exact absurd hfold (hnever _ _ _)
    | next next =>
      rw [foldEvents_next last slot hfold]
      exact ih h _ _

variable {keys : KeySpace} {item : ItemId} {events : List Event}

theorem view_eq_foldEvents (hversion : version keys item = .ok events.length)
    (hstored : Stored keys item 0 events) {first : Nat} (hfirst : first ≤ events.length) (init : σ)
    (f : σ → Event → Outcome (Visit σ)) : view keys item first init f =
      foldEvents (view.visit f) (events.drop first) first (init, none) := by
  have hdrop := hstored.drop first hfirst
  rw [Nat.zero_add] at hdrop
  rw [view, hversion, ← foldSlots_eq hdrop, List.length_drop]
  rfl

/-! ## Syncs -/

variable {s t u : Session} {name : Bytes} {v : View σ} {initial result : σ} {c : Checkpoint}

/-- The checkpoint that a sync starts from, in the store as it is then. -/
def SyncStarts (item : ItemId) (name : Bytes) (v : View σ) (initial : σ) (s : Session)
    (c : Checkpoint) (u : Session) : Prop :=
  checkpoint? s.keys item name = .ok (some c) ∧ u = s ∨
    checkpoint? s.keys item name = .ok none ∧ ∃ bytes, v.encode initial = .ok bytes ∧
      registerView item name bytes s = .ok c u

/-- What a sync stores in the end: a new checkpoint if there was a slot to visit. -/
def SyncStores (item : ItemId) (name : Bytes) (v : View σ) (result : σ) (u t : Session) :
    Option Nat → Prop
  | none => u = t
  | some last => ∃ bytes, v.encode result = .ok bytes ∧
      setCheckpoint item name ⟨UInt64.ofNat (last + 1), bytes⟩ u = .ok () t

theorem syncFrom_eq_ok : syncFrom item name v c u = .ok result t ↔
    ∃ state visited, v.decode c.state = .ok state ∧
      view u.keys item c.vsn.toNat state v.fold = .ok (result, visited) ∧
      SyncStores item name v result u t visited := by
  unfold syncFrom
  simp only [Txn.bind_eq_ok, Txn.lift_eq_ok, Txn.query_eq_ok]
  constructor
  · rintro ⟨state, _, ⟨hdecode, rfl⟩, ⟨found, visited⟩, _, ⟨hview, rfl⟩, h⟩
    cases visited with
    | none =>
      obtain ⟨rfl, rfl⟩ := Txn.pure_eq_ok.mp h
      exact ⟨state, none, hdecode, hview, rfl⟩
    | some last =>
      simp only [Txn.bind_eq_ok, Txn.lift_eq_ok, Txn.pure_eq_ok] at h
      obtain ⟨bytes, _, ⟨hencode, rfl⟩, _, w, hset, rfl, rfl⟩ := h
      exact ⟨state, some last, hdecode, hview, bytes, hencode, hset⟩
  · rintro ⟨state, visited, hdecode, hview, hstores⟩
    refine ⟨state, u, ⟨hdecode, rfl⟩, (result, visited), u, ⟨hview, rfl⟩, ?_⟩
    cases visited with
    | none => exact Txn.pure_eq_ok.mpr ⟨rfl, hstores⟩
    | some last =>
      obtain ⟨bytes, hencode, hset⟩ := hstores
      simp only [Txn.bind_eq_ok, Txn.lift_eq_ok, Txn.pure_eq_ok]
      exact ⟨bytes, u, ⟨hencode, rfl⟩, (), t, hset, trivial, rfl⟩

theorem sync_eq_ok : sync item name v initial s = .ok result t ↔
    ∃ c u, SyncStarts item name v initial s c u ∧ syncFrom item name v c u = .ok result t := by
  rw [sync_eq, Txn.bind_eq_ok]
  constructor
  · rintro ⟨found, u, hquery, h⟩
    obtain ⟨hfound, rfl⟩ := Txn.query_eq_ok.mp hquery
    cases found with
    | some c => exact ⟨c, s, .inl ⟨hfound, rfl⟩, h⟩
    | none =>
      simp only [Txn.bind_eq_ok, Txn.lift_eq_ok] at h
      obtain ⟨bytes, _, ⟨hencode, rfl⟩, c, u, hregister, h⟩ := h
      exact ⟨c, u, .inr ⟨hfound, bytes, hencode, hregister⟩, h⟩
  · rintro ⟨c, u, ⟨hfound, rfl⟩ | ⟨hfound, bytes, hencode, hregister⟩, h⟩
    · exact ⟨some c, u, Txn.query_eq_ok.mpr ⟨hfound, rfl⟩, h⟩
    · refine ⟨none, s, Txn.query_eq_ok.mpr ⟨hfound, rfl⟩, ?_⟩
      simp only [Txn.bind_eq_ok, Txn.lift_eq_ok]
      exact ⟨bytes, s, ⟨hencode, rfl⟩, c, u, hregister, h⟩

/-- A sync does not look at the clock. -/
theorem timeless_sync (item : ItemId) (name : Bytes) (v : View σ) (initial : σ) :
    (sync item name v initial).Timeless := by
  have hset : ∀ c, (setCheckpoint item name c).Timeless := fun c =>
    (Txn.timeless_lift _).bind fun _ => Txn.timeless_set _ _ _
  have hviews : ∀ names : List Bytes, (setList (Key.views item) names).Timeless := fun names =>
    (Txn.timeless_lift _).bind fun _ => Txn.timeless_set _ _ _
  have hregister : ∀ state, (registerView item name state).Timeless := by
    intro state
    refine (hset _).bind fun _ => ?_
    refine (Txn.timeless_query _).bind fun names => ?_
    refine (hviews _).bind fun _ => ?_
    exact Txn.timeless_pure _
  have hfrom : ∀ c, (syncFrom item name v c).Timeless := by
    intro c
    refine (Txn.timeless_lift _).bind fun state => ?_
    refine (Txn.timeless_query _).bind fun found => ?_
    obtain ⟨result, visited⟩ := found
    cases visited with
    | none => exact Txn.timeless_pure _
    | some last =>
      refine (Txn.timeless_lift _).bind fun bytes => ?_
      refine (hset _).bind fun _ => ?_
      exact Txn.timeless_pure _
  rw [sync_eq]
  refine (Txn.timeless_query _).bind fun found => ?_
  cases found with
  | some c => exact hfrom c
  | none =>
    refine (Txn.timeless_lift _).bind fun bytes => ?_
    refine (hregister _).bind fun c => ?_
    exact hfrom c

/-! ## Checkpoints -/

/-- The store keeps the checkpoint under the name of the view. -/
def Checkpointed (keys : KeySpace) (item : ItemId) (name : Bytes) (c : Checkpoint) : Prop :=
  ∃ bytes, record c = .ok bytes ∧ keys.stored? (Key.view item name) = some (0 :: bytes)

theorem Checkpointed.congr {a b : KeySpace} (h : Checkpointed a item name c)
    (hkey : b.stored? (Key.view item name) = a.stored? (Key.view item name)) :
    Checkpointed b item name c := by
  obtain ⟨bytes, hrecord, hstored⟩ := h
  exact ⟨bytes, hrecord, hkey.trans hstored⟩

theorem Checkpointed.checkpoint? (h : Checkpointed keys item name c) (hname : name ≠ [])
    {n : Nat} (hversion : version keys item = .ok n) :
    checkpoint? keys item name = .ok (some c) := by
  obtain ⟨bytes, hrecord, hstored⟩ := h
  have hentry : keys.get (Key.view item name) = .ok (some ⟨0, bytes⟩) :=
    KeySpace.get_eq_some (Key.index_ne_nil _ _ _) hstored
  simp [Item.checkpoint?, checkViewName, hname, hversion, hentry, recorded_record hrecord, bind,
    Except.bind, Functor.map, Except.map]

theorem checkpoint?_of_none (hstored : keys.stored? (Key.view item name) = none) (hname : name ≠ [])
    {n : Nat} (hversion : version keys item = .ok n) : checkpoint? keys item name = .ok none := by
  have hentry : keys.get (Key.view item name) = .ok none :=
    KeySpace.get_eq_none (Key.index_ne_nil _ _ _) hstored
  simp [Item.checkpoint?, checkViewName, hname, hversion, hentry, bind, Except.bind, pure,
    Except.pure]

theorem setCheckpoint_eq_ok {x : Unit} (h : setCheckpoint item name c s = .ok x t) :
    ∃ bytes, record c = .ok bytes ∧
      t = { s with keys := s.keys.insert (Key.view item name) (0 :: bytes) } := by
  obtain ⟨bytes, u, hlift, hset⟩ := Txn.bind_eq_ok.mp h
  obtain ⟨hrecord, rfl⟩ := Txn.lift_eq_ok.mp hlift
  exact ⟨bytes, hrecord, (Txn.set_eq_ok.mp hset).2⟩

theorem checkpointed_setCheckpoint {x : Unit} (h : setCheckpoint item name c s = .ok x t) :
    Checkpointed t.keys item name c := by
  obtain ⟨bytes, hrecord, rfl⟩ := setCheckpoint_eq_ok h
  exact ⟨bytes, hrecord, KeySpace.stored?_insert_self _ _ _⟩

/-- How far a view is: its fold has been given `passed`, starting from `initial`, and the checkpoint
has the state that came of it and the number of slots it came from. -/
structure Progress (keys : KeySpace) (item : ItemId) (name : Bytes) (v : View σ) (initial : σ)
    (passed events : List Event) (c : Checkpoint) (state : σ) : Prop where
  checkpointed : Checkpointed keys item name c
  le : c.vsn.toNat ≤ events.length
  front : passed = events.take c.vsn.toNat
  folded : v.foldAll initial passed = .ok state
  encoded : v.encode state = .ok c.state

/-- From its checkpoint on, a sync passes the next slots to the fold and moves the checkpoint
behind them. -/
theorem syncFrom_progress {passed : List Event} {state : σ} (hdecode : v.DecodesEncoded)
    (hversion : version u.keys item = .ok events.length) (hstored : Stored u.keys item 0 events)
    (h : Progress u.keys item name v initial passed events c state)
    (hsync : syncFrom item name v c u = .ok result t) :
    ∃ c' more, Progress t.keys item name v initial (passed ++ more) events c' result ∧
      syncFrom item name v.traced c u = .ok (result, more) t ∧
      (v.NeverBreaks → c'.vsn.toNat = events.length) ∧ (c.vsn.toNat = events.length → t = u) := by
  obtain ⟨start, visited, hstart, hview, hstores⟩ := syncFrom_eq_ok.mp hsync
  rw [hdecode state c.state h.encoded, Except.ok.injEq] at hstart
  subst hstart
  have hfolds := fun {τ : Type} (init : τ) (f : τ → Event → Outcome (Visit τ)) =>
    view_eq_foldEvents hversion hstored h.le init f
  rw [hfolds] at hview
  obtain ⟨n, hn, hresult, hvisited, hall, htraced⟩ := foldEvents_view hview
  rw [List.length_drop] at hn hall
  have hle := h.le
  have hpassed : passed ++ (events.drop c.vsn.toNat).take n = events.take (c.vsn.toNat + n) := by
    rw [h.front, List.take_add]
  have hfolded : v.foldAll initial (passed ++ (events.drop c.vsn.toNat).take n) = .ok result := by
    rw [View.foldAll_append, h.folded]
    exact hresult
  have hnoted : syncFrom item name v.traced c u =
      .ok (result, (events.drop c.vsn.toNat).take n) t := by
    refine syncFrom_eq_ok.mpr ⟨(state, []), visited, ?_, ?_, ?_⟩
    · simp [View.traced, hdecode state c.state h.encoded, bind, Except.bind, pure, Except.pure]
    · rw [hfolds, htraced]
      rfl
    · cases visited <;> exact hstores
  by_cases hzero : n = 0
  · subst hzero
    rw [hvisited] at hstores
    obtain rfl : u = t := hstores
    obtain rfl : state = result := Except.ok.inj hresult
    exact ⟨c, _, ⟨h.checkpointed, h.le, hpassed, hfolded, h.encoded⟩, hnoted,
      fun hnever => by have := hall hnever; omega, fun _ => rfl⟩
  · rw [hvisited, if_neg hzero] at hstores
    obtain ⟨bytes, hencode, hset⟩ := hstores
    have hlast : c.vsn.toNat + n - 1 + 1 = c.vsn.toNat + n := by omega
    have hlt : c.vsn.toNat + n < Bytes.capacity 8 :=
      lt_of_le_of_lt (by omega) (isThere_of_version hversion).2
    have hvsn : (UInt64.ofNat (c.vsn.toNat + n - 1 + 1)).toNat = c.vsn.toNat + n := by
      rw [hlast]
      exact UInt64.toNat_ofNat_of_lt' hlt
    refine ⟨_, _, ⟨checkpointed_setCheckpoint hset, ?_, ?_, hfolded, hencode⟩, hnoted, ?_, ?_⟩
    · rw [hvsn]
      omega
    · rw [hvsn]
      exact hpassed
    · intro hnever
      have := hall hnever
      rw [hvsn]
      omega
    · omega

theorem view_ne_view {m n : Bytes} (h : m ≠ n) : Key.view item m ≠ Key.view item n :=
  Key.sub_ne (x := .view m) (y := .view n) (by simpa using h)

/-- The list of views stands where the view without a name would. -/
theorem views_ne_view (hname : name ≠ []) : Key.views item ≠ Key.view item name :=
  view_ne_view hname.symm

theorem registerView_eq_ok {state : Bytes} (hname : name ≠ [])
    (h : registerView item name state s = .ok c t) : c = ⟨0, state⟩ ∧
      ∃ bytes names listed, record c = .ok bytes ∧ viewList s.keys item = .ok names ∧
        record (names ++ [name]) = .ok listed ∧
        t.keys = (s.keys.insert (Key.view item name) (0 :: bytes)).insert
          (Key.views item) (0 :: listed) := by
  obtain ⟨_, u, hset, h⟩ := Txn.bind_eq_ok.mp h
  obtain ⟨bytes, hrecord, rfl⟩ := setCheckpoint_eq_ok hset
  obtain ⟨names, w, hquery, h⟩ := Txn.bind_eq_ok.mp h
  obtain ⟨hnames, rfl⟩ := Txn.query_eq_ok.mp hquery
  obtain ⟨_, w, hlist, h⟩ := Txn.bind_eq_ok.mp h
  obtain ⟨listed, hlisted, rfl⟩ := setList_eq_ok hlist
  obtain ⟨rfl, rfl⟩ := Txn.pure_eq_ok.mp h
  refine ⟨rfl, bytes, names, listed, hrecord, ?_, hlisted, rfl⟩
  rw [← hnames]
  exact (listAt_congr (KeySpace.stored?_insert_of_ne _ _ (views_ne_view hname).symm)).symm

theorem registerView_within {state : Bytes} (h : registerView item name state s = .ok c t) :
    s.Within (Aside item) t :=
  (Txn.Keeps.writes_of_ok (writes_registerView fun name => .inr (.inl ⟨name, rfl⟩)) h).within

/-- The index of the item reads the same after writes beside it. -/
theorem stored_of_aside (hwithin : s.Within (Aside item) t)
    (hversion : version s.keys item = .ok events.length) (hstored : Stored s.keys item 0 events) :
    version t.keys item = .ok events.length ∧ Stored t.keys item 0 events := by
  constructor
  · rw [version_congr (hwithin.frame not_aside_version)]
    exact hversion
  · exact hstored.transport fun n event _ _ =>
      hwithin.slotEvent (hwithin.frame (not_aside_slot _))

/-- Behind its checkpoint a sync writes nothing else. -/
theorem syncFrom_frame (h : syncFrom item name v c u = .ok result t) {key : Bytes}
    (hkey : Key.view item name ≠ key) : t.keys.stored? key = u.keys.stored? key := by
  obtain ⟨_, visited, -, -, hstores⟩ := syncFrom_eq_ok.mp h
  cases visited with
  | none => rw [show u = t from hstores]
  | some last =>
    obtain ⟨bytes, -, hset⟩ := hstores
    obtain ⟨stored, -, rfl⟩ := setCheckpoint_eq_ok hset
    exact KeySpace.stored?_insert_of_ne _ _ hkey

theorem name_ne_nil_of_starts (h : SyncStarts item name v initial s c u) : name ≠ [] := by
  rcases h with ⟨hfound, -⟩ | ⟨hfound, -⟩ <;> exact name_ne_nil_of_checkpoint? hfound

/-- Checkpoints are read of items that are there. -/
theorem version_of_checkpoint? {found : Option Checkpoint}
    (h : checkpoint? keys item name = .ok found) : ∃ n, version keys item = .ok n := by
  obtain ⟨_, -, h⟩ := Outcome.bind_eq_ok.mp h
  obtain ⟨n, hversion, -⟩ := Outcome.bind_eq_ok.mp h
  exact ⟨n, hversion⟩

theorem version_of_starts (h : SyncStarts item name v initial s c u) :
    ∃ n, version s.keys item = .ok n := by
  rcases h with ⟨hfound, -⟩ | ⟨hfound, -⟩ <;> exact version_of_checkpoint? hfound

/-- A sync of a view that has a checkpoint goes on from there. -/
theorem sync_progress {passed : List Event} {state first : σ} (hdecode : v.DecodesEncoded)
    (hversion : version s.keys item = .ok events.length) (hstored : Stored s.keys item 0 events)
    (h : Progress s.keys item name v first passed events c state)
    (hsync : sync item name v initial s = .ok result t) :
    ∃ c' more, Progress t.keys item name v first (passed ++ more) events c' result ∧
      sync item name v.traced (initial, []) s = .ok (result, more) t ∧
      (v.NeverBreaks → c'.vsn.toNat = events.length) ∧ (c.vsn.toNat = events.length → t = s) := by
  obtain ⟨c₀, u, hstarts, hsync⟩ := sync_eq_ok.mp hsync
  have hfound := h.checkpointed.checkpoint? (name_ne_nil_of_starts hstarts) hversion
  obtain ⟨hsome, rfl⟩ | ⟨hnone, -⟩ := hstarts
  · rw [hfound, Except.ok.injEq, Option.some.injEq] at hsome
    subst hsome
    obtain ⟨c', more, hafter, htraced, hall, hsame⟩ :=
      syncFrom_progress hdecode hversion hstored h hsync
    exact ⟨c', more, hafter, sync_eq_ok.mpr ⟨c, u, .inl ⟨hfound, rfl⟩, htraced⟩, hall, hsame⟩
  · rw [hfound] at hnone
    cases hnone

/-- The item lists the view. -/
def ListsView (keys : KeySpace) (item : ItemId) (name : Bytes) : Prop :=
  ∃ names, viewList keys item = .ok names ∧ name ∈ names

theorem ListsView.congr {a b : KeySpace} (h : ListsView a item name)
    (hkey : b.stored? (Key.views item) = a.stored? (Key.views item)) : ListsView b item name := by
  obtain ⟨names, hnames, hmem⟩ := h
  exact ⟨names, (listAt_congr hkey).trans hnames, hmem⟩

/-- The first sync of a view registers it, and starts from the beginning. -/
theorem sync_registers (hdecode : v.DecodesEncoded)
    (hversion : version s.keys item = .ok events.length) (hstored : Stored s.keys item 0 events)
    (hnone : s.keys.stored? (Key.view item name) = none)
    (hsync : sync item name v initial s = .ok result t) :
    ∃ c' passed, Progress t.keys item name v initial passed events c' result ∧
      sync item name v.traced (initial, []) s = .ok (result, passed) t ∧
      (v.NeverBreaks → c'.vsn.toNat = events.length) ∧ ListsView t.keys item name := by
  obtain ⟨c, u, hstarts, hsync⟩ := sync_eq_ok.mp hsync
  have hname := name_ne_nil_of_starts hstarts
  have hfound := checkpoint?_of_none hnone hname hversion
  obtain ⟨hsome, -⟩ | ⟨-, bytes, hencode, hregister⟩ := hstarts
  · rw [hfound] at hsome
    cases hsome
  · obtain ⟨rfl, stored, names, listed, hrecord, -, hlisted, hkeys⟩ :=
      registerView_eq_ok hname hregister
    have hbegin : Progress u.keys item name v initial [] events ⟨0, bytes⟩ initial := by
      refine ⟨⟨stored, hrecord, ?_⟩, Nat.zero_le _, rfl, rfl, hencode⟩
      rw [hkeys, KeySpace.stored?_insert_of_ne _ _ (views_ne_view hname),
        KeySpace.stored?_insert_self]
    obtain ⟨hversion', hstored'⟩ := stored_of_aside (registerView_within hregister) hversion hstored
    obtain ⟨c', more, hafter, htraced, hall, -⟩ :=
      syncFrom_progress hdecode hversion' hstored' hbegin hsync
    refine ⟨c', more, hafter, sync_eq_ok.mpr ⟨_, u, .inr ⟨hfound, bytes, hencode, hregister⟩,
      htraced⟩, hall, names ++ [name], ?_, by simp⟩
    refine viewList_of_some ?_ (recorded_record hlisted)
    rw [syncFrom_frame hsync (views_ne_view hname).symm, hkeys, KeySpace.stored?_insert_self]

/-- A sync of one view leaves the checkpoints of all others. -/
theorem sync_others (hsync : sync item name v initial s = .ok result t) {other : Bytes}
    (hother : other ≠ name) (hnil : other ≠ []) :
    t.keys.stored? (Key.view item other) = s.keys.stored? (Key.view item other) := by
  obtain ⟨c, u, hstarts, hsync⟩ := sync_eq_ok.mp hsync
  have hname := name_ne_nil_of_starts hstarts
  rw [syncFrom_frame hsync (view_ne_view hother.symm)]
  obtain ⟨-, rfl⟩ | ⟨-, bytes, -, hregister⟩ := hstarts
  · rfl
  · obtain ⟨-, stored, found, listed, -, -, -, hkeys⟩ := registerView_eq_ok hname hregister
    rw [hkeys, KeySpace.stored?_insert_of_ne _ _ (views_ne_view hnil),
      KeySpace.stored?_insert_of_ne _ _ (view_ne_view hother.symm)]

/-- A sync takes no view off the list. -/
theorem ListsView.sync {other : Bytes} (h : ListsView s.keys item other)
    (hsync : sync item name v initial s = .ok result t) : ListsView t.keys item other := by
  obtain ⟨c, u, hstarts, hsync⟩ := sync_eq_ok.mp hsync
  have hname := name_ne_nil_of_starts hstarts
  have hlisted : ListsView u.keys item other := by
    obtain ⟨-, rfl⟩ | ⟨-, bytes, -, hregister⟩ := hstarts
    · exact h
    · obtain ⟨names, hnames, hmem⟩ := h
      obtain ⟨-, stored, found, listed, -, hfound, hlisted, hkeys⟩ :=
        registerView_eq_ok hname hregister
      rw [hfound, Except.ok.injEq] at hnames
      subst hnames
      refine ⟨found ++ [name], viewList_of_some ?_ (recorded_record hlisted), by simp [hmem]⟩
      rw [hkeys, KeySpace.stored?_insert_self]
  exact hlisted.congr (syncFrom_frame hsync (views_ne_view hname).symm)

end Item
end Chronicle
