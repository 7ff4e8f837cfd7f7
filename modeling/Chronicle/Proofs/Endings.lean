import Mathlib
import Chronicle.Proofs.AliasOwners
import Chronicle.Proofs.FaultKinds
import Chronicle.Proofs.ViewFolds

/-!
# How parts of an operation end

A part of an operation on an item is done or leaves nothing, if the lists of the item can be read. The
one exception is a slot for which the version has no number left. So an operation that fails leaves
what the parts before have done.
-/
namespace Chronicle

/-! ## Lists that are too long -/

namespace Packed

variable {α : Type}

/-- A value of the type fails to be stored for a length only. -/
def FailsLong (α : Type) [Packed α] : Prop :=
  ∀ (x : α) {fault : Fault}, pack x = .error fault → fault = .tooLong

theorem failsLong_byte : FailsLong UInt8 := fun _ _ h => by cases h

theorem packAll_failsLong [Packed α] (h : FailsLong α) (xs : List α) {fault : Fault}
    (hxs : packAll pack xs = .error fault) : fault = .tooLong := by
  induction xs with
  | nil => cases hxs
  | cons x xs ih =>
    rw [packAll] at hxs
    cases hx : pack x with
    | error cause =>
      rw [hx] at hxs
      cases hxs
      exact h x hx
    | ok front =>
      rw [hx] at hxs
      cases hrest : packAll pack xs with
      | error cause =>
        rw [hrest] at hxs
        cases hxs
        exact ih hrest
      | ok back =>
        rw [hrest] at hxs
        cases hxs

theorem failsLong_list [Packed α] (h : FailsLong α) : FailsLong (List α) := by
  intro xs fault hxs
  change packList pack xs = _ at hxs
  rw [packList, packLength] at hxs
  split_ifs at hxs
  · cases hall : packAll pack xs with
    | error cause =>
      rw [hall] at hxs
      cases hxs
      exact packAll_failsLong h xs hall
    | ok bytes =>
      rw [hall] at hxs
      cases hxs
  · cases hxs
    rfl

theorem failsLong_name : FailsLong Bytes := failsLong_list failsLong_byte

theorem failsLong_item : FailsLong ItemId := by
  intro item fault h
  cases hname : pack item.name with
  | error cause =>
    change (do return (← pack item.tag) ++ (← pack item.name)) = _ at h
    rw [hname] at h
    cases h
    exact failsLong_name item.name hname
  | ok bytes =>
    change (do return (← pack item.tag) ++ (← pack item.name)) = _ at h
    rw [hname] at h
    cases h

end Packed

/-! ## What transactions leave -/

namespace Txn

variable {α β : Type} {m : Txn α} {f : α → Txn β} {I : KeySpace → Prop} {s t : Session}

/-- The transaction fails and leaves what it has written by then. Not for a list with more elements
than 64 bits can count, since no store holds one. -/
def Fails (m : Txn α) (s t : Session) : Prop :=
  ∃ fault, fault ≠ .packed .tooLong ∧ m s = .error fault t

/-- The transaction succeeds or fails and leaves the session so. -/
def Ends (m : Txn α) (s t : Session) : Prop := (∃ a, m s = .ok a t) ∨ m.Fails s t

theorem Ends.leaves (h : m.Ends s t) : m.leaves s = t := by
  rcases h with ⟨a, h⟩ | ⟨fault, -, h⟩
  · exact leaves_of_ok h
  · exact leaves_of_error h

theorem fails_bind (h : (m >>= f).Fails s t) :
    m.Fails s t ∨ ∃ a u, m s = .ok a u ∧ (f a).Fails u t := by
  obtain ⟨fault, hfault, h⟩ := h
  rcases bind_eq_error.mp h with h | ⟨a, u, hm, h⟩
  · exact .inl ⟨fault, hfault, h⟩
  · exact .inr ⟨a, u, hm, fault, hfault, h⟩

theorem ends_bind (h : (m >>= f).Ends s t) :
    m.Fails s t ∨ ∃ a u, m s = .ok a u ∧ (f a).Ends u t := by
  rcases h with ⟨b, h⟩ | h
  · obtain ⟨a, u, hm, h⟩ := bind_eq_ok.mp h
    exact .inr ⟨a, u, hm, .inl ⟨b, h⟩⟩
  · rcases fails_bind h with h | ⟨a, u, hm, h⟩
    · exact .inl h
    · exact .inr ⟨a, u, hm, .inr h⟩

theorem ends_refuse_if {c : Prop} [Decidable c] {fault : Fault} {f : PUnit → Txn β}
    (h : (if c then refuse fault >>= f else f ⟨⟩).Ends s t) : t = s ∨ ¬ c ∧ (f ⟨⟩).Ends s t := by
  split_ifs at h with hc
  · rcases ends_bind h with ⟨_, -, hrefuse⟩ | ⟨_, _, hrefuse, -⟩
    · cases hrefuse
      exact .inl rfl
    · cases hrefuse
  · exact .inr ⟨hc, h⟩

theorem fails_query {read : KeySpace → Outcome α} (h : (query read).Fails s t) : t = s := by
  obtain ⟨fault, -, h⟩ := h
  exact (query_eq_error h).symm

theorem fails_lift {outcome : Outcome α} (h : (lift outcome).Fails s t) : t = s := fails_query h

theorem fails_set {key value : Bytes} {mark : UInt8} (h : (set key value mark).Fails s t) : t = s := by
  obtain ⟨fault, -, h⟩ := h
  exact (set_eq_error h).symm

theorem not_fails_set {key value : Bytes} {mark : UInt8} (hkey : key ≠ [])
    (hlength : key.length ≤ keyLimit) : ¬ (set key value mark).Fails s t := by
  rintro ⟨fault, -, h⟩
  unfold set at h
  rw [if_neg (not_or.mpr ⟨hkey, not_lt.mpr hlength⟩)] at h
  cases h

theorem not_fails_delete {key : Bytes} (hkey : key ≠ []) : ¬ (delete key).Fails s t := by
  rintro ⟨fault, -, h⟩
  unfold delete at h
  rw [if_neg hkey] at h
  cases h

theorem fails_query_bind {read : KeySpace → Outcome α} {a : α} (hread : read s.keys = .ok a)
    (h : (query read >>= f).Fails s t) : (f a).Fails s t := by
  obtain ⟨fault, hfault, h⟩ := h
  rw [bind_of_ok (query_of_ok hread)] at h
  exact ⟨fault, hfault, h⟩

theorem not_fails_pure {a : α} : ¬ (pure a : Txn α).Fails s t := fun ⟨_, _, h⟩ => by cases h

/-- Whether it succeeds or fails, the transaction preserves `I`. -/
def Upholds (I : KeySpace → Prop) (m : Txn α) : Prop := ∀ ⦃s t⦄, I s.keys → m.Ends s t → I t.keys

theorem Keeps.upholds (h : m.Keeps fun s => I s.keys) : m.Upholds I := fun s _ hs hends =>
  hends.leaves ▸ h s hs

/-- What comes second may rely on the success of what comes first. -/
theorem Upholds.bind_of_ok (hm : m.Upholds I) (hf : ∀ {s a t u}, I s.keys → m s = .ok a t →
    I t.keys → (f a).Ends t u → I u.keys) : (m >>= f).Upholds I := by
  intro s t hs h
  rcases ends_bind h with h | ⟨a, u, hu, h⟩
  · exact hm hs (.inr h)
  · exact hf hs hu (hm hs (.inl ⟨a, hu⟩)) h

theorem Upholds.bind (hm : m.Upholds I) (hf : ∀ a, (f a).Upholds I) : (m >>= f).Upholds I :=
  hm.bind_of_ok fun _ _ ht h => hf _ ht h

theorem upholds_query (read : KeySpace → Outcome α) : (query read).Upholds I :=
  (keeps_query read).upholds

theorem upholds_lift (outcome : Outcome α) : (lift outcome).Upholds I := upholds_query _

theorem upholds_pure (a : α) : (pure a : Txn α).Upholds I := (keeps_pure a).upholds

theorem upholds_refuse (fault : Fault) : (refuse fault : Txn α).Upholds I := (keeps_refuse fault).upholds

theorem Upholds.map {g : α → β} (hm : m.Upholds I) : (g <$> m).Upholds I := by
  rw [← bind_pure_comp]
  exact hm.bind fun a => upholds_pure (g a)

theorem upholds_ite {c : Prop} [Decidable c] {n : Txn α} (hm : m.Upholds I) (hn : n.Upholds I) :
    (if c then m else n).Upholds I := by
  split_ifs
  · exact hm
  · exact hn

theorem upholds_refuse_if {c : Prop} [Decidable c] {fault : Fault} {f : PUnit → Txn β}
    (hf : (f ⟨⟩).Upholds I) : (if c then refuse fault >>= f else f ⟨⟩).Upholds I :=
  upholds_ite ((upholds_refuse _).bind fun _ => hf) hf

theorem upholds_forM {xs : List β} {f : β → Txn Unit} (h : ∀ x ∈ xs, (f x).Upholds I) :
    (xs.forM f).Upholds I := by
  induction xs with
  | nil => exact upholds_pure ()
  | cons x xs ih =>
    exact (h x List.mem_cons_self).bind fun _ => ih fun y hy => h y (List.mem_cons_of_mem x hy)

end Txn

/-! ## Parts of an operation that fail -/

namespace Item

variable {s t : Session} {item x : ItemId} {n : Nat}

theorem not_fails_setList {α : Type} [Packed α] (hα : Packed.FailsLong α) {k : SubKey} {xs : List α}
    (hlength : (Key.sub item k).length ≤ Txn.keyLimit) : ¬ (setList (Key.sub item k) xs).Fails s t := by
  intro h
  rcases Txn.fails_bind h with ⟨fault, hfault, hlift⟩ | ⟨bytes, u, -, hset⟩
  · have hrecord := Txn.error_of_lift hlift
    unfold record Packed.encode at hrecord
    cases hpack : Packed.pack xs with
    | ok bytes => rw [hpack] at hrecord; cases hrecord
    | error cause =>
      rw [hpack] at hrecord
      cases hrecord
      exact hfault (by rw [Packed.failsLong_list hα xs hpack])
  · exact Txn.not_fails_set (Key.index_ne_nil _ _ _) hlength hset

theorem length_sub_mono {k l : SubKey} (h : k.suffix.length ≤ l.suffix.length) :
    (Key.sub item k).length ≤ (Key.sub item l).length := by
  rw [Key.length_sub, Key.length_sub]
  omega

/-- The name leaves room for every key of the item but those of views. -/
def Roomy (item : ItemId) : Prop := item.name.length + 12 ≤ Txn.keyLimit

theorem Roomy.length_sub (h : Roomy item) {k : SubKey} (hk : k.suffix.length ≤ 8) :
    (Key.sub item k).length ≤ Txn.keyLimit := by
  unfold Roomy at h
  rw [Key.length_sub]
  omega

theorem roomy_of_set {slot : UInt64} {value : Bytes} {mark : UInt8} {v : Unit}
    (h : Txn.set (Key.sub item (.slot slot)) value mark s = .ok v t) : Roomy item := by
  have hlength := (Txn.set_eq_ok.mp h).1.2
  rw [Key.length_sub] at hlength
  simpa [SubKey.suffix, Roomy] using hlength

theorem roomy_of_recordSlot {id : EventId} {kind : UInt8} {v : Unit}
    (h : recordSlot item n id kind s = .ok v t) : Roomy item := by
  obtain ⟨_, u, hset, -⟩ := Txn.bind_eq_ok.mp h
  exact roomy_of_set hset

/-- Where the version has room, so have the two lists. -/
theorem fails_initIndex (h : (initIndex item).Fails s t) : t = s := by
  rcases Txn.fails_bind h with ⟨fault, -, h⟩ | ⟨_, u, hversion, h⟩
  · exact (setVersion_eq_error h).symm
  · have hlength : (Key.sub item .version).length ≤ Txn.keyLimit := by
      unfold setVersion at hversion
      rw [if_pos (by decide)] at hversion
      exact (Txn.set_eq_ok.mp hversion).1.2
    have hlist : ∀ {k}, k.suffix.length ≤ 0 → (Key.sub item k).length ≤ Txn.keyLimit := fun hk =>
      (length_sub_mono (l := .version) hk).trans hlength
    rcases Txn.fails_bind h with h | ⟨_, w, -, h⟩
    · exact absurd h (not_fails_setList (k := .aliases) Packed.failsLong_item (hlist le_rfl))
    · exact absurd h (not_fails_setList (k := .view []) Packed.failsLong_name (hlist le_rfl))

/-- A slot without a version is left behind only where the version has reached its end. -/
theorem fails_recordSlot {id : EventId} {kind : UInt8} (h : (recordSlot item n id kind).Fails s t) :
    t = s ∨ Bytes.capacity 8 ≤ n + 1 ∧
      t.keys = s.keys.insert (Key.slot item (UInt64.ofNat n)) (kind :: Key.log id) := by
  rcases Txn.fails_bind h with h | ⟨_, u, hset, h⟩
  · exact .inl (Txn.fails_set h)
  · have hroom := roomy_of_set hset
    obtain ⟨-, rfl⟩ := Txn.set_eq_ok.mp hset
    refine .inr ?_
    unfold setVersion at h
    split_ifs at h with hn
    · refine absurd h (Txn.not_fails_set (Key.index_ne_nil _ _ _) ?_)
      exact hroom.length_sub (k := .version) (Nat.zero_le _)
    · obtain ⟨fault, -, h⟩ := h
      cases h
      exact ⟨not_lt.mp hn, rfl⟩

theorem fails_link {xs : List ItemId} (hroom : Roomy item) (hxs : aliasList s.keys item = .ok xs)
    (h : (link item x).Fails s t) : t = s := by
  rcases Txn.fails_bind h with h | ⟨_, u, hset, h⟩
  · exact Txn.fails_set h
  · obtain ⟨-, rfl⟩ := Txn.set_eq_ok.mp hset
    have hlist : aliasList (s.keys.insert (Key.pointer x) (0 :: item.encode)) item = .ok xs := by
      rw [← hxs]
      exact aliasList_congr (KeySpace.stored?_insert_of_ne _ _ (Key.pointer_ne_sub item x .aliases))
    have hset := Txn.fails_query_bind hlist h
    refine absurd hset (not_fails_setList (k := .aliases) Packed.failsLong_item ?_)
    exact hroom.length_sub (Nat.zero_le _)

theorem not_fails_unlink {xs : List ItemId} (hroom : Roomy item)
    (hxs : aliasList s.keys item = .ok xs) : ¬ (unlink item x).Fails s t := by
  intro h
  rcases Txn.fails_bind h with h | ⟨_, u, hdelete, h⟩
  · have hkey : Key.pointer x ≠ [] := nofun
    exact Txn.not_fails_delete hkey h
  · obtain ⟨-, rfl⟩ := Txn.delete_eq_ok.mp hdelete
    have hlist : aliasList (s.keys.erase (Key.pointer x)) item = .ok xs := by
      rw [← hxs]
      exact aliasList_congr (KeySpace.stored?_erase_of_ne _ (Key.pointer_ne_sub item x .aliases))
    have hset := Txn.fails_query_bind hlist h
    refine absurd hset (not_fails_setList (k := .aliases) Packed.failsLong_item ?_)
    exact hroom.length_sub (Nat.zero_le _)

theorem fails_setCheckpoint {name : Bytes} {c : Checkpoint} (h : (setCheckpoint item name c).Fails s t) :
    t = s := by
  rcases Txn.fails_bind h with h | ⟨_, u, hlift, h⟩
  · exact Txn.fails_lift h
  · obtain ⟨-, rfl⟩ := Txn.lift_eq_ok.mp hlift
    exact Txn.fails_set h

/-- Where the first checkpoint has room, so has the list of views. -/
theorem fails_registerView {name state : Bytes} {names : List Bytes} (hname : name ≠ [])
    (hnames : viewList s.keys item = .ok names) (h : (registerView item name state).Fails s t) :
    t = s := by
  rcases Txn.fails_bind h with h | ⟨_, u, hset, h⟩
  · exact fails_setCheckpoint h
  · obtain ⟨bytes, v, hlift, hset⟩ := Txn.bind_eq_ok.mp hset
    obtain ⟨-, rfl⟩ := Txn.lift_eq_ok.mp hlift
    obtain ⟨⟨-, hlength⟩, rfl⟩ := Txn.set_eq_ok.mp hset
    have hlist : viewList (s.keys.insert (Key.view item name) (0 :: bytes)) item = .ok names := by
      rw [← hnames]
      exact listAt_congr (KeySpace.stored?_insert_of_ne _ _ (views_ne_view hname).symm)
    have hset := Txn.fails_query_bind hlist h
    rcases Txn.fails_bind hset with h | ⟨_, w, -, h⟩
    · refine absurd h (not_fails_setList (k := .view []) Packed.failsLong_name ?_)
      exact (length_sub_mono (l := .view name) (Nat.zero_le _)).trans hlength
    · exact absurd h Txn.not_fails_pure

theorem fails_syncFrom {σ : Type} {name : Bytes} {v : View σ} {c : Checkpoint}
    (h : (syncFrom item name v c).Fails s t) : t = s := by
  rcases Txn.fails_bind h with h | ⟨state, u, hlift, h⟩
  · exact Txn.fails_lift h
  obtain ⟨-, rfl⟩ := Txn.lift_eq_ok.mp hlift
  rcases Txn.fails_bind h with h | ⟨⟨state, visited⟩, u, hquery, h⟩
  · exact Txn.fails_query h
  obtain ⟨-, rfl⟩ := Txn.query_eq_ok.mp hquery
  cases visited with
  | none => exact absurd h Txn.not_fails_pure
  | some last =>
    rcases Txn.fails_bind h with h | ⟨bytes, u, hlift, h⟩
    · exact Txn.fails_lift h
    obtain ⟨-, rfl⟩ := Txn.lift_eq_ok.mp hlift
    rcases Txn.fails_bind h with h | ⟨_, u, -, h⟩
    · exact fails_setCheckpoint h
    · exact absurd h Txn.not_fails_pure

/-- A sync that fails has registered its view or has written nothing. -/
theorem fails_sync {σ : Type} {name : Bytes} {v : View σ} {initial : σ}
    (hlist : ∀ n, version s.keys item = .ok n → ∃ names, viewList s.keys item = .ok names)
    (h : (sync item name v initial).Fails s t) : t = s ∨ ∃ c, SyncStarts item name v initial s c t := by
  rw [sync_eq] at h
  rcases Txn.fails_bind h with h | ⟨found, u, hquery, h⟩
  · exact .inl (Txn.fails_query h)
  obtain ⟨hfound, rfl⟩ := Txn.query_eq_ok.mp hquery
  have hname := name_ne_nil_of_checkpoint? hfound
  cases found with
  | some c => exact .inl (fails_syncFrom h)
  | none =>
    rcases Txn.fails_bind h with h | ⟨bytes, u, hlift, h⟩
    · exact .inl (Txn.fails_lift h)
    obtain ⟨hencode, rfl⟩ := Txn.lift_eq_ok.mp hlift
    rcases Txn.fails_bind h with h | ⟨c, u, hregister, h⟩
    · obtain ⟨n, hversion⟩ := version_of_checkpoint? hfound
      obtain ⟨names, hnames⟩ := hlist n hversion
      exact .inl (fails_registerView hname hnames h)
    · rw [fails_syncFrom h]
      exact .inr ⟨c, .inr ⟨hfound, bytes, hencode, hregister⟩⟩

end Item

end Chronicle
