import Mathlib
import Chronicle.Proofs.RoundTrip

/-!
# Whole records

A reader goes from the front and does not look at what follows the record it takes. So a record
that is cut short cannot be read: with its other part behind it would be read as the same record,
and something would be left over, but of a whole record nothing is left.
-/
namespace Chronicle.Packed

variable {α β γ δ : Type}

/-- What the one reader makes of some bytes, the other makes of them when more bytes follow, and
it leaves those as well. -/
def Extends (reader reader' : Reader α) : Prop :=
  ∀ bytes x rest more, reader bytes = .ok (x, rest) → reader' (bytes ++ more) = .ok (x, rest ++ more)

theorem extends_pure (x : α) : Extends (pure x) (pure x) := by
  intro bytes y rest more h
  cases h
  rfl

theorem extends_throw (fault : Fault) (reader : Reader α) : Extends (throw fault) reader := nofun

theorem Extends.bind {reader reader' : Reader α} {next next' : α → Reader β}
    (hfront : Extends reader reader') (hback : ∀ x, Extends (next x) (next' x)) :
    Extends (reader >>= next) (reader' >>= next') := by
  intro bytes y rest more h
  obtain ⟨p, hread, h⟩ := Outcome.bind_eq_ok.mp h
  exact Outcome.bind_eq_ok.mpr ⟨_, hfront bytes p.1 p.2 more hread, hback p.1 p.2 y rest more h⟩

theorem Extends.map {reader reader' : Reader α} (h : Extends reader reader') (f : α → β) :
    Extends (f <$> reader) (f <$> reader') :=
  h.bind fun x => extends_pure (f x)

theorem extends_readBytes (n : Nat) : Extends (readBytes n) (readBytes n) := by
  intro bytes x rest more h
  unfold readBytes at h
  dsimp only at h
  split_ifs at h with hlength
  cases h
  rw [List.length_take] at hlength
  have hfront : (bytes ++ more).take n = bytes.take n := List.take_append_of_le_length (by omega)
  have hback : (bytes ++ more).drop n = bytes.drop n ++ more := List.drop_append_of_le_length (by omega)
  simp only [readBytes, hfront, hback, List.length_take, hlength, if_true]

theorem extends_readNat (width : Nat) : Extends (readNat width) (readNat width) :=
  (extends_readBytes width).map _

/-! ## Lists, texts and fields -/

theorem extends_unpackAll {reader reader' : Reader α} (h : Extends reader reader') (count : Nat) :
    Extends (unpackAll reader count) (unpackAll reader' count) := by
  induction count with
  | zero => exact extends_pure _
  | succ count ih => exact h.bind fun x => ih.bind fun xs => extends_pure (x :: xs)

theorem extends_unpackList {reader reader' : Reader α} (h : Extends reader reader') :
    Extends (unpackList reader) (unpackList reader') :=
  (extends_readNat 8).bind fun count => extends_unpackAll h count

/-- The part of a text behind its length. -/
def textBody (n : Nat) : Reader String := fun bytes =>
  if bytes.length < n then .error .textCutShort
  else match Utf8.decode (bytes.take n) with
    | .ok text => .ok (text, bytes.drop n)
    | .error cause => .error (.notText cause)

theorem unpackText_eq : unpackText = unpackLength >>= textBody := by
  unfold unpackText
  congr 1
  funext n bytes
  simp only [textBody, bind, StateT.bind, Except.bind, get, getThe, MonadStateOf.get, StateT.get,
    pure, Except.pure]
  split_ifs
  · rfl
  · show (match Utf8.decode (bytes.take n) with
      | .ok text => (pure text : Reader String)
      | .error cause => throw (Fault.notText cause)) (bytes.drop n) = _
    cases Utf8.decode (bytes.take n) <;> rfl

theorem extends_textBody (n : Nat) : Extends (textBody n) (textBody n) := by
  intro bytes x rest more h
  unfold textBody at h
  split_ifs at h with hlength
  have hfront : (bytes ++ more).take n = bytes.take n := List.take_append_of_le_length (by omega)
  have hback : (bytes ++ more).drop n = bytes.drop n ++ more := List.drop_append_of_le_length (by omega)
  have hlong : ¬ (bytes ++ more).length < n := by
    rw [List.length_append]
    omega
  cases htext : Utf8.decode (bytes.take n) with
  | error cause => rw [htext] at h; cases h
  | ok text =>
    rw [htext] at h
    cases h
    simp only [textBody, if_neg hlong, hfront, hback, htext]

theorem extends_unpackText : Extends unpackText unpackText := by
  rw [unpackText_eq]
  exact (extends_readNat 8).bind extends_textBody

theorem extends_unpackFields {reader reader' : Reader α} (h : Extends reader reader') :
    Extends (unpackFields reader) (unpackFields reader') :=
  (extends_unpackList (extends_unpackText.bind fun name =>
    h.bind fun value => extends_pure (name, value))).map _

/-! ## Types whose readers go from the front -/

/-- A type whose reader does not look at what follows the record. -/
class Forward (α : Type) [Packed α] : Prop where
  extends_unpack : Extends (unpack : Reader α) unpack

export Forward (extends_unpack)

instance : Forward UInt8 where
  extends_unpack := (extends_readNat 1).map _

instance : Forward UInt16 where
  extends_unpack := (extends_readNat 2).map _

instance : Forward UInt32 where
  extends_unpack := (extends_readNat 4).map _

instance : Forward UInt64 where
  extends_unpack := (extends_readNat 8).map _

instance : Forward Int64 where
  extends_unpack := extends_unpack.map UInt64.toInt64

instance : Forward Bool where
  extends_unpack := by
    refine extends_unpack.bind fun found => ?_
    split
    · exact extends_pure false
    · exact extends_pure true
    · exact extends_throw _ _

instance [Packed α] [Forward α] : Forward (List α) where
  extends_unpack := extends_unpackList extends_unpack

instance : Forward String where
  extends_unpack := extends_unpackText

section Fields

variable [Packed α] [Forward α] [Packed β] [Forward β] [Packed γ] [Forward γ]

theorem extends_two (f : α → β → δ) :
    Extends (do let a ← unpack; let b ← unpack; return f a b)
      (do let a ← unpack; let b ← unpack; return f a b) :=
  extends_unpack.bind fun a => extends_unpack.bind fun b => extends_pure (f a b)

theorem extends_three (f : α → β → γ → δ) :
    Extends (do let a ← unpack; let b ← unpack; let c ← unpack; return f a b c)
      (do let a ← unpack; let b ← unpack; let c ← unpack; return f a b c) :=
  extends_unpack.bind fun a => extends_unpack.bind fun b => extends_unpack.bind fun c =>
    extends_pure (f a b c)

end Fields

instance : Forward EventId where
  extends_unpack := extends_three EventId.mk

instance : Forward ItemId where
  extends_unpack := extends_two ItemId.mk

instance : Forward LogEvent where
  extends_unpack := extends_three LogEvent.mk

instance : Forward Envelope where
  extends_unpack := extends_three Envelope.mk

instance : Forward Checkpoint where
  extends_unpack := extends_two Checkpoint.mk

/-! ## Records that can be packed -/

/-- A record that is packed without a fault. -/
def Packs [Packed α] (x : α) : Prop := ∃ bytes, pack x = .ok bytes

theorem packs_append {front back : Except Fault Bytes} (hfront : ∃ a, front = .ok a)
    (hback : ∃ b, back = .ok b) : ∃ bytes, (do return (← front) ++ (← back)) = Except.ok bytes := by
  obtain ⟨a, rfl⟩ := hfront
  obtain ⟨b, rfl⟩ := hback
  exact ⟨a ++ b, rfl⟩

theorem packs_append_append {front middle back : Except Fault Bytes} (hfront : ∃ a, front = .ok a)
    (hmiddle : ∃ b, middle = .ok b) (hback : ∃ c, back = .ok c) :
    ∃ bytes, (do return (← front) ++ (← middle) ++ (← back)) = Except.ok bytes := by
  obtain ⟨a, rfl⟩ := hfront
  obtain ⟨b, rfl⟩ := hmiddle
  obtain ⟨c, rfl⟩ := hback
  exact ⟨a ++ b ++ c, rfl⟩

theorem packs_length {n : Nat} (h : n < Bytes.capacity 8) : ∃ bytes, packLength n = .ok bytes :=
  ⟨_, if_pos h⟩

theorem packs_list [Packed α] {xs : List α} (hlength : xs.length < Bytes.capacity 8)
    (h : ∀ x ∈ xs, Packs x) : Packs xs := by
  refine packs_append (packs_length hlength) ?_
  clear hlength
  induction xs with
  | nil => exact ⟨[], rfl⟩
  | cons x xs ih =>
    exact packs_append (h x List.mem_cons_self) (ih fun y hy => h y (List.mem_cons_of_mem _ hy))

theorem packAll_bytes (b : Bytes) : packAll pack b = .ok b := by
  induction b with
  | nil => rfl
  | cons x b ih =>
    rw [packAll, ih]
    rfl

theorem pack_bytes {b : Bytes} (h : b.length < Bytes.capacity 8) :
    pack b = .ok (Bytes.littleEndian 8 b.length ++ b) := by
  change packList pack b = _
  rw [packList, packLength, if_pos h, packAll_bytes]
  rfl

theorem pack_text {text : String} (h : (Utf8.encode text).length < Bytes.capacity 8) :
    pack text = .ok (Bytes.littleEndian 8 (Utf8.encode text).length ++ Utf8.encode text) := by
  change (do return (← packLength (Utf8.encode text).length) ++ Utf8.encode text) = _
  rw [packLength, if_pos h]
  rfl

theorem packs_bytes {bytes : Bytes} (h : bytes.length < Bytes.capacity 8) : Packs bytes :=
  ⟨_, pack_bytes h⟩

theorem packs_text {text : String} (h : (Utf8.encode text).length < Bytes.capacity 8) :
    Packs text :=
  ⟨_, pack_text h⟩

theorem packs_eventId (id : EventId) : Packs id :=
  packs_append_append ⟨_, rfl⟩ ⟨_, rfl⟩ ⟨_, rfl⟩

theorem packs_item {id : ItemId} (h : id.name.length < Bytes.capacity 8) : Packs id :=
  packs_append ⟨_, rfl⟩ (packs_bytes h)

theorem packs_logEvent {e : LogEvent} (h : e.payload.length < Bytes.capacity 8) : Packs e :=
  packs_append_append ⟨_, rfl⟩ (packs_eventId e.id) (packs_bytes h)

theorem packs_envelope {e : Envelope} (hitem : e.item.name.length < Bytes.capacity 8)
    (htype : e.eventType.length < Bytes.capacity 8) (hpayload : e.payload.length < Bytes.capacity 8) :
    Packs e :=
  packs_append_append (packs_item hitem) (packs_bytes htype) (packs_bytes hpayload)

theorem packs_checkpoint {c : Checkpoint} (h : c.state.length < Bytes.capacity 8) : Packs c :=
  packs_append ⟨_, rfl⟩ (packs_bytes h)

/-! ## Reading back -/

/-- The record is encoded. Whatever follows its encoding, that decodes to the record, and cut
short it does not decode at all. -/
def ReadsBack [Packed α] (x : α) : Prop :=
  ∃ bytes, encode x = .ok bytes ∧ (∀ more, decode (bytes ++ more) = .ok x) ∧
    ∀ front, front <+: bytes → front ≠ bytes →
      ∃ fault, (decode front : Except Fault α) = .error fault

theorem readsBack_of_reads [Packed α] [Forward α] {x : α} {bytes : Bytes}
    (hpack : pack x = .ok bytes) (hreads : Reads unpack bytes x) : ReadsBack x := by
  refine ⟨bytes, hpack, fun more => ?_, fun front hprefix hne => ?_⟩
  · simp [decode, hreads more]
  · obtain ⟨back, rfl⟩ := hprefix
    have hback : back ≠ [] := by
      rintro rfl
      exact hne (List.append_nil front).symm
    cases hread : (unpack : Reader α) front with
    | error fault => exact ⟨fault, by simp [decode, hread]⟩
    | ok p =>
      -- read with the missing part behind it, the record would leave that part over
      have hlonger := extends_unpack front p.1 p.2 back hread
      have hwhole := hreads []
      rw [List.append_nil, hlonger] at hwhole
      have hrest : p.2 ++ back = [] := congrArg Prod.snd (Except.ok.inj hwhole)
      exact absurd (List.append_eq_nil_iff.mp hrest).2 hback

theorem readsBack [Packed α] [LawfulPacked α] [Forward α] {x : α} (h : Packs x) : ReadsBack x := by
  obtain ⟨bytes, hpack⟩ := h
  exact readsBack_of_reads hpack (reads_of_pack hpack)

end Chronicle.Packed
