import Std.Data.ExtTreeMap
import Std.Data.TreeMap
import Chronicle.Fault

/-!
# Key space

The entries of a store, ordered by key. An entry is one mark byte followed by a value; an
entry without even the mark can be found in a damaged store and is reported, never skipped.
A fold visits no more entries than it needs; `fold_eq_visitAll` says which those are.
-/
namespace Chronicle

structure Entry where
  mark : UInt8
  value : Bytes
  deriving DecidableEq, Repr

namespace Entry

def stored (e : Entry) : Bytes := e.mark :: e.value

/-- Splits what is stored under `key`. -/
def ofStored (key : Bytes) : Bytes → Outcome Entry
  | [] => .error (.missingValue key)
  | mark :: value => .ok ⟨mark, value⟩

theorem ofStored_stored (key : Bytes) (e : Entry) : ofStored key e.stored = .ok e := rfl

end Entry

/-- What a visitor of entries asks for next. -/
inductive Visit (σ : Type)
  | next (state : σ)
  | stop (state : σ)

@[ext] structure KeySpace where
  entries : Std.ExtTreeMap Bytes Bytes

namespace KeySpace

variable {σ : Type}

def empty : KeySpace := ⟨∅⟩

instance : Inhabited KeySpace := ⟨empty⟩

def stored? (keys : KeySpace) (key : Bytes) : Option Bytes := keys.entries[key]?

def insert (keys : KeySpace) (key stored : Bytes) : KeySpace := ⟨keys.entries.insert key stored⟩

def erase (keys : KeySpace) (key : Bytes) : KeySpace := ⟨keys.entries.erase key⟩

def toList (keys : KeySpace) : List (Bytes × Bytes) := keys.entries.toList

theorem stored?_insert (keys : KeySpace) (key stored other : Bytes) :
    (keys.insert key stored).stored? other =
      if key = other then some stored else keys.stored? other := by
  simp [stored?, insert, Std.ExtTreeMap.getElem?_insert, Std.LawfulEqCmp.compare_eq_iff_eq]

theorem stored?_erase (keys : KeySpace) (key other : Bytes) :
    (keys.erase key).stored? other = if key = other then none else keys.stored? other := by
  simp [stored?, erase, Std.ExtTreeMap.getElem?_erase, Std.LawfulEqCmp.compare_eq_iff_eq]

theorem ext_stored? {a b : KeySpace} (h : ∀ key, a.stored? key = b.stored? key) : a = b :=
  KeySpace.ext (Std.ExtTreeMap.ext_getElem? h)

/-- No entry has the empty key, and asking for it is a fault. -/
def get (keys : KeySpace) (key : Bytes) : Outcome (Option Entry) :=
  if key = [] then .error .keySize
  else
    match keys.stored? key with
    | none => .ok none
    | some stored => some <$> Entry.ofStored key stored

def contains (keys : KeySpace) (key : Bytes) : Outcome Bool := Option.isSome <$> keys.get key

/-! ## Scans -/

/-- The entries from key `start` on, in order. -/
def upFrom (keys : KeySpace) (start : Bytes) : List (Bytes × Bytes) :=
  keys.toList.filter fun entry => (compare entry.1 start).isGE

/-- Goes through the entries from key `start` on, and no further than `step` asks for. -/
def walk (keys : KeySpace) (start : Bytes) (init : σ)
    (step : Bytes × Bytes → σ → Outcome (ForInStep σ)) : Outcome σ :=
  keys.entries.inner.lift
    (fun tree => forIn ((⟨tree⟩ : Std.TreeMap Bytes Bytes)[start...*]) init step) (by
      intro a b h
      have hlist :
          (⟨a⟩ : Std.TreeMap Bytes Bytes).toList = (⟨b⟩ : Std.TreeMap Bytes Bytes).toList :=
        Std.TreeMap.Equiv.toList_eq ⟨h⟩
      rw [← Std.Slice.forIn_toList, ← Std.Slice.forIn_toList]
      rw [Std.TreeMap.toList_rci compare, Std.TreeMap.toList_rci compare, hlist])

theorem walk_eq_forIn (keys : KeySpace) (start : Bytes) (init : σ)
    (step : Bytes × Bytes → σ → Outcome (ForInStep σ)) :
    keys.walk start init step = forIn (keys.upFrom start) init step := by
  obtain ⟨⟨entries⟩⟩ := keys
  induction entries with
  | mk tree =>
    show forIn ((⟨tree⟩ : Std.TreeMap Bytes Bytes)[start...*]) init step = _
    rw [← Std.Slice.forIn_toList, Std.TreeMap.toList_rci compare]
    rfl

/-- Visits one entry, unless its key does not begin with `stem`, which ends the walk. -/
def visitEntry (stem : Bytes) (visit : σ → Bytes → Entry → Outcome (Visit σ))
    (entry : Bytes × Bytes) (state : σ) : Outcome (ForInStep σ) :=
  if stem.isPrefixOf entry.1 then do
    let found ← Entry.ofStored entry.1 entry.2
    match ← visit state entry.1 found with
    | .stop state => return .done state
    | .next state => return .yield state
  else return .done state

/-- Visits the entries from key `start` on in turn, up to the first whose key does not begin
with `stem`. A damaged entry or a refused visit ends it as well. -/
def fold (keys : KeySpace) (start stem : Bytes) (init : σ)
    (visit : σ → Bytes → Entry → Outcome (Visit σ)) : Outcome σ :=
  keys.walk start init (visitEntry stem visit)

/-- The entries that a fold may visit. -/
def scan (keys : KeySpace) (start stem : Bytes) : List (Bytes × Bytes) :=
  (keys.upFrom start).takeWhile fun entry => stem.isPrefixOf entry.1

/-- Visits a list of entries. -/
def visitAll (visit : σ → Bytes → Entry → Outcome (Visit σ)) :
    List (Bytes × Bytes) → σ → Outcome σ
  | [], state => .ok state
  | (key, stored) :: rest, state => do
    let entry ← Entry.ofStored key stored
    match ← visit state key entry with
    | .stop state => .ok state
    | .next state => visitAll visit rest state

theorem forIn_visitEntry (stem : Bytes) (visit : σ → Bytes → Entry → Outcome (Visit σ))
    (entries : List (Bytes × Bytes)) (state : σ) :
    forIn entries state (visitEntry stem visit) =
      visitAll visit (entries.takeWhile fun entry => stem.isPrefixOf entry.1) state := by
  induction entries generalizing state with
  | nil => rfl
  | cons entry rest ih =>
    rw [List.forIn_cons, List.takeWhile_cons]
    by_cases hstem : stem.isPrefixOf entry.1 = true
    · simp only [visitEntry, visitAll, hstem, if_true]
      cases Entry.ofStored entry.1 entry.2 with
      | error fault => rfl
      | ok found =>
        cases h : visit state entry.1 found with
        | error fault => simp [h, bind, Except.bind]
        | ok next =>
          cases next with
          | stop state => simp [h, bind, Except.bind, pure, Except.pure]
          | next state => simp [h, ih, bind, Except.bind, pure, Except.pure]
    · simp [visitEntry, visitAll, hstem, bind, Except.bind, pure, Except.pure]

theorem fold_eq_visitAll (keys : KeySpace) (start stem : Bytes) (init : σ)
    (visit : σ → Bytes → Entry → Outcome (Visit σ)) :
    keys.fold start stem init visit = visitAll visit (keys.scan start stem) init := by
  rw [fold, walk_eq_forIn, forIn_visitEntry, scan]

end KeySpace
end Chronicle
