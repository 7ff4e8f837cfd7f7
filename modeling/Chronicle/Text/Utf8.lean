import Chronicle.Bytes

/-!
# Text as bytes

A character takes one to four bytes. Reading goes byte by byte: `first` says what a
leading byte opens, `Partial.next` what a further byte does to a character under way.
`decode` refuses the first byte string that is no character and says where it stands;
`lossy` puts one replacement character in its place and goes on.
-/
namespace Chronicle.Utf8

def continuation (n : Nat) : UInt8 := UInt8.ofNat (0x80 + n % 0x40)

def encodeChar (c : Char) : Bytes :=
  let n := c.toNat
  if n < 0x80 then
    [UInt8.ofNat n]
  else if n < 0x800 then
    [UInt8.ofNat (0xC0 + n / 0x40), continuation n]
  else if n < 0x10000 then
    [UInt8.ofNat (0xE0 + n / 0x1000), continuation (n / 0x40), continuation n]
  else
    [UInt8.ofNat (0xF0 + n / 0x40000), continuation (n / 0x1000), continuation (n / 0x40),
      continuation n]

def encode (text : String) : Bytes := text.toList.flatMap encodeChar

/-- A character whose first `length` bytes have been read and that needs `missing` more.
The next of them lies between `low` and `high`. -/
structure Partial where
  missing : Nat
  low : UInt8
  high : UInt8
  value : Nat
  length : Nat
  deriving Repr

inductive Step
  | whole (c : Char)
  | more (p : Partial)
  | refused

/-- The narrower ranges after `E0`, `ED`, `F0` and `F4` keep out overlong forms, surrogates
and values above `10FFFF`. -/
def first (b : UInt8) : Step :=
  let n := b.toNat
  if n < 0x80 then .whole (Char.ofNat n)
  else if n < 0xC2 then .refused
  else if n < 0xE0 then .more ⟨1, 0x80, 0xBF, n - 0xC0, 1⟩
  else if n = 0xE0 then .more ⟨2, 0xA0, 0xBF, 0, 1⟩
  else if n = 0xED then .more ⟨2, 0x80, 0x9F, 0xD, 1⟩
  else if n < 0xF0 then .more ⟨2, 0x80, 0xBF, n - 0xE0, 1⟩
  else if n = 0xF0 then .more ⟨3, 0x90, 0xBF, 0, 1⟩
  else if n < 0xF4 then .more ⟨3, 0x80, 0xBF, n - 0xF0, 1⟩
  else if n = 0xF4 then .more ⟨3, 0x80, 0x8F, 4, 1⟩
  else .refused

def Partial.next (p : Partial) (b : UInt8) : Step :=
  if p.low ≤ b ∧ b ≤ p.high then
    let value := p.value * 0x40 + (b.toNat - 0x80)
    if p.missing ≤ 1 then .whole (Char.ofNat value)
    else .more ⟨p.missing - 1, 0x80, 0xBF, value, p.length + 1⟩
  else .refused

/-- Why a byte string is no text: `length` bytes from `start` on that cannot go on to a
character, or a character from `start` on that the end cuts short. -/
inductive Fault
  | broken (length start : Nat)
  | cut (start : Nat)
  deriving DecidableEq, Repr

def Fault.message : Fault → String
  | .broken length start => s!"invalid utf-8 sequence of {length} bytes from index {start}"
  | .cut start => s!"incomplete utf-8 byte sequence from index {start}"

/-- Reads on at byte `offset`, with a character under way or none. -/
def decodeFrom (offset : Nat) : Option Partial → Bytes → Except Fault (List Char)
  | none, [] => .ok []
  | some p, [] => .error (.cut (offset - p.length))
  | none, b :: rest =>
    match first b with
    | .whole c => (c :: ·) <$> decodeFrom (offset + 1) none rest
    | .more p => decodeFrom (offset + 1) (some p) rest
    | .refused => .error (.broken 1 offset)
  | some p, b :: rest =>
    match p.next b with
    | .whole c => (c :: ·) <$> decodeFrom (offset + 1) none rest
    | .more q => decodeFrom (offset + 1) (some q) rest
    | .refused => .error (.broken p.length (offset - p.length))

def decode (bytes : Bytes) : Except Fault String := String.ofList <$> decodeFrom 0 none bytes

def decode? (bytes : Bytes) : Option String := (decode bytes).toOption

def replacement : Char := Char.ofNat 0xFFFD

/-- A byte that a character under way refuses is read again as a leading byte. -/
def lossyFrom : Option Partial → Bytes → List Char
  | none, [] => []
  | some _, [] => [replacement]
  | none, b :: rest =>
    match first b with
    | .whole c => c :: lossyFrom none rest
    | .more p => lossyFrom (some p) rest
    | .refused => replacement :: lossyFrom none rest
  | some p, b :: rest =>
    match p.next b with
    | .whole c => c :: lossyFrom none rest
    | .more q => lossyFrom (some q) rest
    | .refused =>
      match first b with
      | .whole c => replacement :: c :: lossyFrom none rest
      | .more q => replacement :: lossyFrom (some q) rest
      | .refused => replacement :: replacement :: lossyFrom none rest

def lossy (bytes : Bytes) : String := String.ofList (lossyFrom none bytes)

end Chronicle.Utf8
