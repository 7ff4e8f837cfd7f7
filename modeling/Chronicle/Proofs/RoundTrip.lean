import Mathlib
import Chronicle.Proofs.KeyLayout
import Chronicle.Proofs.Outcomes
import Chronicle.Proofs.Utf8
import Chronicle.Registry.Change
import Chronicle.Item.View

/-!
# Records read back

What is packed is read as the record it was packed from, and what follows it is left alone.
`LawfulPacked` states this for a type; the instances below cover the records of the log, of the
index and of the registry.
-/
namespace Chronicle

namespace Packed

variable {α β : Type}

/-- The reader takes exactly `bytes` off the front and answers `x`. -/
def Reads (reader : Reader α) (bytes : Bytes) (x : α) : Prop :=
  ∀ rest, reader (bytes ++ rest) = .ok (x, rest)

theorem Reads.pure (x : α) : Reads (Pure.pure x) [] x := fun _ => rfl

theorem Reads.bind {reader : Reader α} {next : α → Reader β} {front back : Bytes} {x : α} {y : β}
    (hfront : Reads reader front x) (hback : Reads (next x) back y) :
    Reads (reader >>= next) (front ++ back) y := by
  intro rest
  show ((reader (front ++ back ++ rest)).bind fun p => next p.1 p.2) = _
  rw [List.append_assoc, hfront]
  exact hback rest

/-- The last field of a record. -/
theorem Reads.bind_pure {reader : Reader α} {f : α → β} {bytes : Bytes} {x : α}
    (h : Reads reader bytes x) : Reads (reader >>= fun a => Pure.pure (f a)) bytes (f x) := by
  have hbind : Reads (reader >>= fun a => Pure.pure (f a)) (bytes ++ []) (f x) :=
    h.bind (Reads.pure (f x))
  rwa [List.append_nil] at hbind

theorem Reads.map {reader : Reader α} {f : α → β} {bytes : Bytes} {x : α}
    (h : Reads reader bytes x) : Reads (f <$> reader) bytes (f x) := by
  intro rest
  show ((reader (bytes ++ rest)).bind fun p => .ok (f p.1, p.2)) = _
  rw [h]
  rfl

theorem reads_readBytes {n : Nat} {bytes : Bytes} (h : bytes.length = n) :
    Reads (readBytes n) bytes bytes := by
  intro rest
  subst h
  simp [readBytes]

theorem reads_readNat {width n : Nat} (h : n < Bytes.capacity width) :
    Reads (readNat width) (Bytes.littleEndian width n) n := by
  have hread := (reads_readBytes (Bytes.length_littleEndian width n)).map
    (f := Bytes.littleEndianValue)
  rwa [Bytes.littleEndianValue_littleEndian, Nat.mod_eq_of_lt h] at hread

/-- A type whose binary form reads back. -/
class LawfulPacked (α : Type) [Packed α] : Prop where
  reads_of_pack : ∀ {x : α} {bytes : Bytes}, pack x = .ok bytes → Reads unpack bytes x

export LawfulPacked (reads_of_pack)

theorem decode_encode [Packed α] [LawfulPacked α] {x : α} {bytes : Bytes}
    (h : encode x = .ok bytes) : decode bytes = .ok x := by
  have hread := reads_of_pack h []
  rw [List.append_nil] at hread
  simp [decode, hread]

/-! ## Numbers -/

instance : LawfulPacked UInt8 where
  reads_of_pack {x bytes} h := by
    cases h
    have hlt : x.toNat < Bytes.capacity 1 := x.toNat_lt
    have hread := (reads_readNat hlt).map (f := UInt8.ofNat)
    simp only [Bytes.littleEndian, UInt8.ofNat_toNat] at hread
    exact hread

instance : LawfulPacked UInt16 where
  reads_of_pack {x bytes} h := by
    cases h
    have hread := (reads_readNat (Bytes.toNat_lt_capacity_two x)).map (f := UInt16.ofNat)
    rwa [UInt16.ofNat_toNat] at hread

instance : LawfulPacked UInt64 where
  reads_of_pack {x bytes} h := by
    cases h
    have hread := (reads_readNat (Bytes.toNat_lt_capacity_eight x)).map (f := UInt64.ofNat)
    rwa [UInt64.ofNat_toNat] at hread

theorem reads_of_packLength {n : Nat} {bytes : Bytes} (h : packLength n = .ok bytes) :
    Reads unpackLength bytes n := by
  unfold packLength at h
  split_ifs at h with hn
  cases h
  exact reads_readNat hn

/-! ## Lists and texts -/

/-- A packing step succeeds when both of its parts do. -/
theorem bind_append_eq_ok {front back : Except Fault Bytes} {bytes : Bytes}
    (h : (do return (← front) ++ (← back)) = Except.ok bytes) :
    ∃ a b, front = .ok a ∧ back = .ok b ∧ bytes = a ++ b := by
  obtain ⟨a, hfront, h⟩ := Outcome.bind_eq_ok.mp h
  obtain ⟨b, hback, h⟩ := Outcome.bind_eq_ok.mp h
  exact ⟨a, b, hfront, hback, (Except.ok.inj h).symm⟩

theorem reads_of_packAll {item : α → Except Fault Bytes} {reader : Reader α}
    (hitem : ∀ {x bytes}, item x = .ok bytes → Reads reader bytes x) {xs : List α} {bytes : Bytes}
    (h : packAll item xs = .ok bytes) : Reads (unpackAll reader xs.length) bytes xs := by
  induction xs generalizing bytes with
  | nil =>
    cases h
    exact Reads.pure _
  | cons x xs ih =>
    obtain ⟨a, b, hx, hxs, rfl⟩ := bind_append_eq_ok h
    exact (hitem hx).bind ((ih hxs).bind_pure)

instance [Packed α] [LawfulPacked α] : LawfulPacked (List α) where
  reads_of_pack h := by
    obtain ⟨a, b, hlength, hall, rfl⟩ := bind_append_eq_ok h
    exact (reads_of_packLength hlength).bind (reads_of_packAll reads_of_pack hall)

theorem reads_of_packText {text : String} {bytes : Bytes} (h : packText text = .ok bytes) :
    Reads unpackText bytes text := by
  have h : (do return (← packLength (Utf8.encode text).length) ++ (← .ok (Utf8.encode text))) =
      Except.ok bytes := h
  obtain ⟨a, b, hlength, hbytes, rfl⟩ := bind_append_eq_ok h
  cases hbytes
  apply (reads_of_packLength hlength).bind
  intro rest
  simp [Utf8.decode_encode, bind, StateT.bind, Except.bind, pure, StateT.pure, Except.pure,
    get, getThe, MonadStateOf.get, StateT.get, set, StateT.set]

instance : LawfulPacked String where
  reads_of_pack := reads_of_packText

/-! ## Records -/

theorem bind_append_append_eq_ok {front middle back : Except Fault Bytes} {bytes : Bytes}
    (h : (do return (← front) ++ (← middle) ++ (← back)) = Except.ok bytes) :
    ∃ a b c, front = .ok a ∧ middle = .ok b ∧ back = .ok c ∧ bytes = a ++ (b ++ c) := by
  obtain ⟨a, hfront, h⟩ := Outcome.bind_eq_ok.mp h
  obtain ⟨b, hmiddle, h⟩ := Outcome.bind_eq_ok.mp h
  obtain ⟨c, hback, h⟩ := Outcome.bind_eq_ok.mp h
  exact ⟨a, b, c, hfront, hmiddle, hback, by rw [← Except.ok.inj h, List.append_assoc]⟩

variable {γ δ : Type} [Packed α] [LawfulPacked α] [Packed β] [LawfulPacked β] [Packed γ]
  [LawfulPacked γ]

/-- A record of two fields. -/
theorem reads_two {x : α} {y : β} {f : α → β → δ} {bytes : Bytes}
    (h : (do return (← pack x) ++ (← pack y)) = Except.ok bytes) :
    Reads (do let a ← unpack; let b ← unpack; return f a b) bytes (f x y) := by
  obtain ⟨a, b, hx, hy, rfl⟩ := bind_append_eq_ok h
  exact (reads_of_pack hx).bind (reads_of_pack hy).bind_pure

/-- A record of three fields. -/
theorem reads_three {x : α} {y : β} {z : γ} {f : α → β → γ → δ} {bytes : Bytes}
    (h : (do return (← pack x) ++ (← pack y) ++ (← pack z)) = Except.ok bytes) :
    Reads (do let a ← unpack; let b ← unpack; let c ← unpack; return f a b c) bytes
      (f x y z) := by
  obtain ⟨a, b, c, hx, hy, hz, rfl⟩ := bind_append_append_eq_ok h
  exact (reads_of_pack hx).bind ((reads_of_pack hy).bind (reads_of_pack hz).bind_pure)

instance : LawfulPacked EventId where
  reads_of_pack h := reads_three h

instance : LawfulPacked ItemId where
  reads_of_pack h := reads_two h

instance : LawfulPacked LogEvent where
  reads_of_pack h := reads_three h

instance : LawfulPacked Envelope where
  reads_of_pack h := reads_three h

instance : LawfulPacked Checkpoint where
  reads_of_pack h := reads_two h

instance : LawfulPacked Change.EntityRecord where
  reads_of_pack h := (reads_of_packText h).map

instance : LawfulPacked Change.EventRecord where
  reads_of_pack h := reads_three h

end Packed

open Packed (LawfulPacked)

theorem recorded_record {α : Type} [Packed α] [LawfulPacked α] {x : α} {bytes : Bytes}
    (h : record x = .ok bytes) : recorded bytes = .ok x := by
  have henc : Packed.encode x = .ok bytes := Outcome.mapError_eq_ok.mp h
  exact Outcome.mapError_eq_ok.mpr (Packed.decode_encode henc)

theorem Envelope.decode_encode {envelope : Envelope} {bytes : Bytes}
    (h : envelope.encode = .ok bytes) : Envelope.decode bytes = .ok envelope := by
  have henc : Packed.encode envelope = .ok bytes := Outcome.mapError_eq_ok.mp h
  exact Outcome.mapError_eq_ok.mpr (Packed.decode_encode henc)

/-- What a log entry with an envelope says about its item. -/
theorem LogEvent.itemEvent_of_encode {envelope : Envelope} {entry : LogEvent}
    (h : envelope.encode = .ok entry.payload) :
    entry.itemEvent = .ok (envelope.unwrap entry.mark entry.id) := by
  rw [LogEvent.itemEvent, Envelope.decode_encode h]
  rfl

/-- A change reads back from the event that records it. -/
theorem Change.ofEvent_toEvent {c : Change} {event : Event} (h : c.toEvent = .ok event) :
    Change.ofEvent event = .ok (some c) := by
  have hread : ∀ {α : Type} [Packed α] [LawfulPacked α] {x : α} {eventType : Bytes}
      (_ : (do return Event.new Kind.schema eventType (← record x)) = Except.ok event),
      event.kind = Kind.schema ∧ event.eventType = eventType ∧ recorded event.payload = .ok x := by
    intro α _ _ x eventType hevent
    obtain ⟨bytes, hrecord, hevent⟩ := Outcome.bind_eq_ok.mp hevent
    cases hevent
    exact ⟨rfl, rfl, recorded_record hrecord⟩
  cases c with
  | entityCreated name =>
    obtain ⟨hkind, htype, hpayload⟩ := hread h
    rw [ofEvent, if_neg (not_not.mpr hkind), if_pos htype, readEntity, hpayload]
    rfl
  | entityDeleted name =>
    obtain ⟨hkind, htype, hpayload⟩ := hread h
    rw [ofEvent, if_neg (not_not.mpr hkind), htype, if_neg (by decide), if_pos rfl, readEntity,
      hpayload]
    rfl
  | eventCreated entity name schema =>
    obtain ⟨hkind, htype, hpayload⟩ := hread h
    rw [ofEvent, if_neg (not_not.mpr hkind), htype, if_neg (by decide), if_neg (by decide),
      if_pos rfl, readEvent, hpayload]
    rfl
  | eventUpdated entity name schema =>
    obtain ⟨hkind, htype, hpayload⟩ := hread h
    rw [ofEvent, if_neg (not_not.mpr hkind), htype, if_neg (by decide), if_neg (by decide),
      if_neg (by decide), if_pos rfl, readEvent, hpayload]
    rfl
  | eventDeleted entity name =>
    obtain ⟨hkind, htype, hpayload⟩ := hread h
    rw [ofEvent, if_neg (not_not.mpr hkind), htype, if_neg (by decide), if_neg (by decide),
      if_neg (by decide), if_neg (by decide), if_pos rfl, readEvent, hpayload]
    rfl

/-! ## Lengths of records -/

namespace Packed

variable {α : Type}

theorem length_packAll {item : α → Except Fault Bytes} {k : Nat}
    (hitem : ∀ {x bytes}, item x = .ok bytes → k ≤ bytes.length) {xs : List α} {bytes : Bytes}
    (h : packAll item xs = .ok bytes) : k * xs.length ≤ bytes.length ∧ (xs = [] → bytes = []) := by
  induction xs generalizing bytes with
  | nil =>
    cases h
    simp
  | cons x xs ih =>
    obtain ⟨a, b, hx, hxs, rfl⟩ := bind_append_eq_ok h
    have ha := hitem hx
    have hb := (ih hxs).1
    simp only [List.length_cons, List.length_append, Nat.mul_succ]
    exact ⟨by omega, nofun⟩

theorem length_packLength {n : Nat} {bytes : Bytes} (h : packLength n = .ok bytes) :
    bytes.length = 8 := by
  unfold packLength at h
  split_ifs at h
  cases h
  exact Bytes.length_littleEndian _ _

theorem length_packList {item : α → Except Fault Bytes} {xs : List α} {bytes : Bytes}
    (h : packList item xs = .ok bytes) : 8 ≤ bytes.length := by
  obtain ⟨a, b, hlength, -, rfl⟩ := bind_append_eq_ok h
  rw [List.length_append, length_packLength hlength]
  omega

end Packed

/-- A list is shorter than a log key when it is empty, and longer when each of its elements takes
up six bytes or more. -/
theorem length_record_list_ne {α : Type} [Packed α] {k : Nat} (hk : 6 ≤ k)
    (hitem : ∀ {x : α} {bytes}, Packed.pack x = .ok bytes → k ≤ bytes.length) {xs : List α}
    {bytes : Bytes} (h : record xs = .ok bytes) : bytes.length ≠ Key.logLength := by
  have hpack : Packed.pack xs = .ok bytes := Outcome.mapError_eq_ok.mp h
  obtain ⟨a, b, hlength, hall, rfl⟩ := Packed.bind_append_eq_ok hpack
  obtain ⟨hlong, hempty⟩ := Packed.length_packAll hitem hall
  rw [List.length_append, Packed.length_packLength hlength, Key.logLength]
  cases xs with
  | nil => simp [hempty rfl]
  | cons x xs =>
    rw [List.length_cons, Nat.mul_succ] at hlong
    omega

theorem length_record_items_ne {xs : List ItemId} {bytes : Bytes} (h : record xs = .ok bytes) :
    bytes.length ≠ Key.logLength := by
  refine length_record_list_ne (k := 8) (by omega) (fun {x bytes} hpack => ?_) h
  obtain ⟨a, b, -, hname, rfl⟩ := Packed.bind_append_eq_ok hpack
  have hb := Packed.length_packList hname
  rw [List.length_append]
  omega

theorem length_record_names_ne {xs : List Bytes} {bytes : Bytes} (h : record xs = .ok bytes) :
    bytes.length ≠ Key.logLength :=
  length_record_list_ne (k := 8) (by omega) Packed.length_packList h

theorem le_length_record_checkpoint {c : Checkpoint} {bytes : Bytes} (h : record c = .ok bytes) :
    16 ≤ bytes.length := by
  have hpack : Packed.pack c = .ok bytes := Outcome.mapError_eq_ok.mp h
  obtain ⟨a, b, hvsn, hstate, rfl⟩ := Packed.bind_append_eq_ok hpack
  cases hvsn
  have hb := Packed.length_packList hstate
  rw [List.length_append, Bytes.length_littleEndian]
  omega

theorem length_record_checkpoint_ne {c : Checkpoint} {bytes : Bytes} (h : record c = .ok bytes) :
    bytes.length ≠ Key.logLength := by
  have hlong := le_length_record_checkpoint h
  rw [Key.logLength]
  omega

/-! ## What readers take -/

namespace Packed

variable {α β : Type}

/-- When the reader succeeds, it has taken `n` bytes or more off the front. -/
def Takes (n : Nat) (reader : Reader α) : Prop :=
  ∀ bytes x rest, reader bytes = .ok (x, rest) → rest.length + n ≤ bytes.length

theorem takes_pure (x : α) : Takes 0 (pure x : Reader α) := by
  intro bytes y rest h
  cases h
  exact le_rfl

theorem Takes.bind {m n : Nat} {reader : Reader α} {next : α → Reader β}
    (hfront : Takes m reader) (hback : ∀ x, Takes n (next x)) : Takes (m + n) (reader >>= next) := by
  intro bytes y rest h
  obtain ⟨p, hread, h⟩ := Outcome.bind_eq_ok.mp h
  have h₁ := hfront bytes p.1 p.2 hread
  have h₂ := hback p.1 p.2 y rest h
  omega

theorem Takes.mono {m n : Nat} {reader : Reader α} (h : Takes n reader) (hmn : m ≤ n) :
    Takes m reader := by
  intro bytes x rest hread
  have := h bytes x rest hread
  omega

theorem takes_readBytes (n : Nat) : Takes n (readBytes n) := by
  intro bytes x rest h
  unfold readBytes at h
  dsimp only at h
  split_ifs at h with hlength
  cases h
  rw [List.length_take] at hlength
  rw [List.length_drop]
  omega

theorem takes_readNat (n : Nat) : Takes n (readNat n) :=
  (takes_readBytes n).bind fun _ => takes_pure _

theorem takes_unpackAll {n : Nat} {reader : Reader α} (h : Takes n reader) (count : Nat) :
    Takes (n * count) (unpackAll reader count) := by
  induction count with
  | zero => exact takes_pure _
  | succ count ih =>
    have htakes := h.bind fun x => ih.bind fun xs => takes_pure (x :: xs)
    rwa [Nat.add_zero, Nat.add_comm, ← Nat.mul_succ] at htakes

theorem takes_unpackList {reader : Reader α} (h : Takes 0 reader) : Takes 8 (unpackList reader) :=
  (takes_readNat 8).bind fun count => (takes_unpackAll h count).mono (Nat.zero_le _)

theorem takes_name : Takes 8 (unpack : Reader Bytes) :=
  takes_unpackList (((takes_readNat 1).bind fun _ => takes_pure _).mono (Nat.zero_le 1))

theorem takes_item : Takes 10 (unpack : Reader ItemId) := by
  have htag : Takes 2 (unpack : Reader UInt16) := (takes_readNat 2).bind fun _ => takes_pure _
  exact htag.bind fun tag => takes_name.bind fun name => takes_pure _

end Packed

/-- Read as a list, a log key promises more elements than it has bytes for. -/
theorem recorded_log_ne {α : Type} [Packed α] (htakes : Packed.Takes 1 (Packed.unpack : Packed.Reader α))
    (id : EventId) (xs : List α) : recorded (Key.log id) ≠ .ok xs := by
  intro h
  obtain ⟨p, hunpack, -⟩ := Outcome.map_eq_ok.mp (Outcome.mapError_eq_ok.mp h)
  have hlength := Key.length_log id
  obtain ⟨rest, hrest⟩ := Key.log_eq_cons id
  rw [hrest] at hunpack hlength
  rw [List.length_cons, Key.logLength] at hlength
  have hcount : Packed.unpackLength (Key.logTag :: rest) =
      .ok (101 + 256 * Bytes.littleEndianValue (rest.take 7), rest.drop 7) := by
    have hlength : (Key.logTag :: rest.take 7).length = 8 := by
      rw [List.length_cons, List.length_take]
      omega
    have hread := Packed.reads_readBytes hlength (rest.drop 7)
    rw [List.cons_append, List.take_append_drop] at hread
    change (Packed.readBytes 8 (Key.logTag :: rest)).bind (fun p => .ok (_, p.2)) = _
    rw [hread]
    rfl
  change (Packed.unpackLength (Key.logTag :: rest)).bind
    (fun p => Packed.unpackAll Packed.unpack p.1 p.2) = _ at hunpack
  rw [hcount] at hunpack
  have hrest := Packed.takes_unpackAll htakes _ _ _ _ hunpack
  rw [List.length_drop] at hrest
  omega

end Chronicle
