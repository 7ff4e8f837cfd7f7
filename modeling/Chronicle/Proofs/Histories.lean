import Mathlib
import Chronicle.Proofs.LogCalls

/-!
# Histories of a store

A caller may go on after a failure, and may abort a transaction in which nothing has failed. A
history is what transactions of this kind do to a store, action by action. Beside the operations
there is the import of a log entry under its own identity, over whatever stands there.
-/
namespace Chronicle

inductive Action : Type 1
  | operate (op : Op)
  | mirror (e : LogEvent)

namespace Action

def run : Action → Txn Reply
  | operate op => op.run
  | mirror e => (fun _ => .done) <$> Log.replicate e

/-- The item that an action is about. -/
def item? : Action → Option ItemId
  | operate op => op.item?
  | mirror _ => none

def Ready (keys : KeySpace) : Action → Prop
  | operate op => op.Ready keys
  | mirror _ => True

theorem leaves_mirror (e : LogEvent) (s : Session) :
    (mirror e).run.leaves s = { s with keys := s.keys.withLog [e] } := by
  rw [run, Txn.leaves_map, Txn.leaves_of_ok (Log.replicate_eq e s)]

/-- No action turns the clock back. -/
theorem clock_leaves (a : Action) (s : Session) :
    (a.run.leaves s).clock.readings = s.clock.readings ∧
      s.clock.taken ≤ (a.run.leaves s).clock.taken := by
  cases a with
  | operate op =>
    have hwithin : s.Within op.Touches ((operate op).run.leaves s) :=
      (Txn.Keeps.writes_leaves op.writes s).within
    exact ⟨hwithin.readings, hwithin.taken⟩
  | mirror e =>
    rw [leaves_mirror]
    exact ⟨rfl, le_rfl⟩

end Action

/-- Actions carried out one after the other, whether those before have succeeded or not, and then
committed or aborted. -/
structure Transaction where
  actions : List Action
  commits : Bool

namespace Session

def goThrough (s : Session) (actions : List Action) : Session :=
  actions.foldl (fun s a => a.run.leaves s) s

def transact (s : Session) (x : Transaction) : Session :=
  if x.commits then s.goThrough x.actions else s.abort (s.goThrough x.actions)

/-- The session after transactions. -/
def passed (s : Session) (txns : List Transaction) : Session := txns.foldl transact s

theorem clock_goThrough (s : Session) (actions : List Action) :
    (s.goThrough actions).clock.readings = s.clock.readings ∧
      s.clock.taken ≤ (s.goThrough actions).clock.taken := by
  induction actions generalizing s with
  | nil => exact ⟨rfl, le_rfl⟩
  | cons a actions ih =>
    obtain ⟨hreadings, htaken⟩ := a.clock_leaves s
    obtain ⟨hreadings', htaken'⟩ := ih (a.run.leaves s)
    exact ⟨hreadings'.trans hreadings, htaken.trans htaken'⟩

end Session

/-! ## Deeds -/

/-- An action that has been carried out, with what it answered if it succeeded. -/
structure Deed where
  action : Action
  before : Session
  reply : Option Reply
  after : Session

def Action.deed (a : Action) (s : Session) : Deed :=
  match a.run s with
  | .ok reply t => ⟨a, s, some reply, t⟩
  | .error _ t => ⟨a, s, none, t⟩

namespace Action

variable {a : Action} {s t : Session} {reply : Reply}

theorem deed_of_ok (h : a.run s = .ok reply t) : a.deed s = ⟨a, s, some reply, t⟩ := by
  rw [deed, h]

theorem action_deed (a : Action) (s : Session) : (a.deed s).action = a := by
  unfold deed
  cases a.run s <;> rfl

theorem before_deed (a : Action) (s : Session) : (a.deed s).before = s := by
  unfold deed
  cases a.run s <;> rfl

theorem after_deed (a : Action) (s : Session) : (a.deed s).after = a.run.leaves s := by
  unfold deed Txn.leaves
  cases a.run s <;> rfl

theorem reply_deed_eq_some : (a.deed s).reply = some reply ↔ ∃ t, a.run s = .ok reply t := by
  unfold deed
  cases a.run s <;> simp [eq_comm]

/-- A mutation in its two halves, of which the second follows only if the first has succeeded; any
other action as it is. -/
def deeds (a : Action) (s : Session) : List Deed :=
  match a with
  | .operate (.mutate m) =>
    let first := (operate .ensure).deed s
    if first.reply.isSome then [first, (operate (.mutate m)).deed first.after] else [first]
  | a => [a.deed s]

end Action

/-- What actions do, each after those before it. -/
def deeds : List Action → Session → List Deed
  | [], _ => []
  | a :: actions, s => a.deeds s ++ deeds actions (a.run.leaves s)

/-- What the committed ones among the transactions do. -/
def history : List Transaction → Session → List Deed
  | [], _ => []
  | x :: txns, s => (if x.commits then deeds x.actions s else []) ++ history txns (s.transact x)

/-! ## Induction over histories -/

/-- A session with the deeds that have led to it from `s₀`. Clock readings may be lost in between, to
transactions that were aborted. -/
inductive Journal (s₀ : Session) : List Deed → Session → Prop
  | start : Journal s₀ [] s₀
  | abort {ds : List Deed} {s t : Session} (h : Journal s₀ ds s) (hkeys : t.keys = s.keys)
      (hreadings : t.clock.readings = s.clock.readings) (htaken : s.clock.taken ≤ t.clock.taken) :
      Journal s₀ ds t
  | deed {ds : List Deed} {s : Session} (h : Journal s₀ ds s) (a : Action)
      (hready : a.Ready s.keys) : Journal s₀ (ds ++ [a.deed s]) (a.run.leaves s)

namespace Action

variable {m : Mutation} {s u : Session} {fault : Fault}

/-- With the item of the registry in place a mutation goes on the same way. -/
theorem leaves_mutate_of_ensure (h : Registry.ensure s = .ok () u) :
    (operate (.mutate m)).run.leaves u = (operate (.mutate m)).run.leaves s := by
  have hprepare : Registry.prepare u = Registry.prepare s := by
    unfold Registry.prepare
    rw [Txn.bind_of_ok h, Txn.bind_of_ok (Registry.ensure_of_isThere (Registry.ensure_eq_ok h).1)]
  have hbind : ∀ f : Registry → Txn Nat,
      (Registry.prepare >>= f).leaves u = (Registry.prepare >>= f).leaves s := fun f => by
    rw [Txn.leaves_bind, Txn.leaves_bind, hprepare]
  change (Reply.number <$> m.run).leaves u = (Reply.number <$> m.run).leaves s
  rw [Txn.leaves_map, Txn.leaves_map]
  cases m <;> exact hbind _

theorem leaves_mutate_of_ensure_error (h : Registry.ensure s = .error fault u) :
    (operate (.mutate m)).run.leaves s = u := by
  have hprepare : Registry.prepare s = .error fault u := Txn.bind_eq_error.mpr (.inl h)
  have hbind : ∀ f : Registry → Txn Nat, (Registry.prepare >>= f).leaves s = u := fun f => by
    rw [Txn.leaves_bind, hprepare]
  change (Reply.number <$> m.run).leaves s = u
  rw [Txn.leaves_map]
  cases m <;> exact hbind _

theorem deeds_mutate_of_ensure (h : Registry.ensure s = .ok () u) : (operate (.mutate m)).deeds s =
    [(operate .ensure).deed s, (operate (.mutate m)).deed u] ∧ (operate .ensure).run.leaves s = u := by
  have hrun : (operate .ensure).run s = .ok .done u := Txn.map_eq_ok.mpr ⟨(), h, rfl⟩
  unfold deeds
  rw [deed_of_ok hrun]
  exact ⟨rfl, Txn.leaves_of_ok hrun⟩

theorem deeds_mutate_of_ensure_error (h : Registry.ensure s = .error fault u) :
    (operate (.mutate m)).deeds s = [(operate .ensure).deed s] ∧
      (operate .ensure).run.leaves s = u := by
  have hrun : (operate .ensure).run s = .error fault u := by
    change EStateM.map _ Registry.ensure s = _
    rw [EStateM.map, h]
  unfold deeds deed
  rw [hrun]
  exact ⟨rfl, Txn.leaves_of_error hrun⟩

end Action

namespace Journal

variable {s₀ s : Session} {ds : List Deed}

theorem action (h : Journal s₀ ds s) (a : Action) :
    Journal s₀ (ds ++ a.deeds s) (a.run.leaves s) := by
  have hplain : a.Ready s.keys → Journal s₀ (ds ++ [a.deed s]) (a.run.leaves s) := h.deed a
  cases a with
  | mirror e => exact hplain trivial
  | operate op =>
    cases op with
    | mutate m =>
      have hfirst := h.deed (.operate .ensure) trivial
      cases hensure : Registry.ensure s with
      | ok v u =>
        obtain ⟨hdeeds, hleaves⟩ := Action.deeds_mutate_of_ensure (m := m) hensure
        have hready : (Action.operate (.mutate m)).Ready u.keys := (Registry.ensure_eq_ok hensure).1
        rw [hleaves] at hfirst
        have hsecond := hfirst.deed _ hready
        rw [Action.leaves_mutate_of_ensure hensure] at hsecond
        rw [hdeeds, List.append_cons]
        exact hsecond
      | error fault u =>
        obtain ⟨hdeeds, hleaves⟩ := Action.deeds_mutate_of_ensure_error (m := m) hensure
        rw [hdeeds, Action.leaves_mutate_of_ensure_error hensure, ← hleaves]
        exact hfirst
    | _ => exact hplain trivial

theorem goThrough (h : Journal s₀ ds s) (actions : List Action) :
    Journal s₀ (ds ++ deeds actions s) (s.goThrough actions) := by
  induction actions generalizing ds s with
  | nil =>
    rw [deeds, List.append_nil]
    exact h
  | cons a actions ih =>
    rw [deeds, ← List.append_assoc]
    exact ih (h.action a)

theorem passed (h : Journal s₀ ds s) (txns : List Transaction) :
    Journal s₀ (ds ++ history txns s) (s.passed txns) := by
  induction txns generalizing ds s with
  | nil =>
    rw [history, List.append_nil]
    exact h
  | cons x txns ih =>
    rw [history, ← List.append_assoc]
    refine ih ?_
    rw [Session.transact]
    split_ifs with hcommits
    · exact h.goThrough x.actions
    · rw [List.append_nil]
      obtain ⟨hreadings, htaken⟩ := s.clock_goThrough x.actions
      exact h.abort rfl hreadings htaken

/-- The clock has not been turned back. -/
theorem clock (h : Journal s₀ ds s) :
    s.clock.readings = s₀.clock.readings ∧ s₀.clock.taken ≤ s.clock.taken := by
  induction h with
  | start => exact ⟨rfl, le_rfl⟩
  | abort h _ hreadings htaken ih => exact ⟨hreadings.trans ih.1, ih.2.trans htaken⟩
  | deed h a hready ih =>
    obtain ⟨hreadings, htaken⟩ := a.clock_leaves _
    exact ⟨hreadings.trans ih.1, ih.2.trans htaken⟩

end Journal

theorem journal (txns : List Transaction) (s : Session) :
    Journal s (history txns s) (s.passed txns) := Journal.start.passed txns

end Chronicle
