import Chronicle.Text.Utf8

/-!
# Quoted text

What stands between the quotes of a JSON string. `escape` writes the two-letter escapes, the
other control bytes as `\u00xx` and everything else as it is; `unescape?` reads every escape
of the format and asks of a surrogate that it comes in a pair.
-/
namespace Chronicle.Json

def quote : UInt8 := 0x22
def backslash : UInt8 := 0x5C

namespace Quoted

def hexDigit (n : Nat) : UInt8 := UInt8.ofNat (if n < 10 then 48 + n else 87 + n)

def hexValue? (b : UInt8) : Option Nat :=
  let n := b.toNat
  if 48 ≤ n ∧ n ≤ 57 then some (n - 48)
  else if 97 ≤ n ∧ n ≤ 102 then some (n - 87)
  else if 65 ≤ n ∧ n ≤ 70 then some (n - 55)
  else none

/-- The value of four hexadecimal digits. -/
def unit? (a b c d : UInt8) : Option Nat := do
  let a ← hexValue? a
  let b ← hexValue? b
  let c ← hexValue? c
  let d ← hexValue? d
  some (a * 0x1000 + b * 0x100 + c * 0x10 + d)

/-- The letters that stand for one byte after a backslash. -/
def letters : List (Char × UInt8) :=
  [('"', 0x22), ('\\', 0x5C), ('/', 0x2F), ('b', 0x08), ('f', 0x0C), ('n', 0x0A), ('r', 0x0D),
    ('t', 0x09)]

def letterValue? (b : UInt8) : Option UInt8 :=
  (letters.find? fun pair => pair.1.toUInt8 = b).map Prod.snd

def escapeByte (b : UInt8) : Bytes :=
  if b = quote then [backslash, quote]
  else if b = backslash then [backslash, backslash]
  else if b = 0x08 then [backslash, 'b'.toUInt8]
  else if b = 0x0C then [backslash, 'f'.toUInt8]
  else if b = 0x0A then [backslash, 'n'.toUInt8]
  else if b = 0x0D then [backslash, 'r'.toUInt8]
  else if b = 0x09 then [backslash, 't'.toUInt8]
  else if b < 0x20 then
    [backslash, 'u'.toUInt8, 48, 48, hexDigit (b.toNat / 16), hexDigit (b.toNat % 16)]
  else [b]

def escape (bytes : Bytes) : Bytes := bytes.flatMap escapeByte

/-- Splits at the closing quote. The escapes are checked for their form only. -/
def body? : Bytes → Option (Bytes × Bytes)
  | [] => none
  | b :: rest =>
    if b = quote then some ([], rest)
    else if b = backslash then
      match rest with
      | [] => none
      | letter :: rest =>
        if letter = 'u'.toUInt8 then
          match rest with
          | h₁ :: h₂ :: h₃ :: h₄ :: rest =>
            if (unit? h₁ h₂ h₃ h₄).isSome then
              (body? rest).map fun p => (b :: letter :: h₁ :: h₂ :: h₃ :: h₄ :: p.1, p.2)
            else none
          | _ => none
        else if (letterValue? letter).isSome then
          (body? rest).map fun p => (b :: letter :: p.1, p.2)
        else none
    else if b < 0x20 then none
    else (body? rest).map fun p => (b :: p.1, p.2)

def isLeading (unit : Nat) : Bool := 0xD800 ≤ unit ∧ unit < 0xDC00
def isTrailing (unit : Nat) : Bool := 0xDC00 ≤ unit ∧ unit < 0xE000

def pair (leading trailing : Nat) : Char :=
  Char.ofNat (0x10000 + (leading - 0xD800) * 0x400 + (trailing - 0xDC00))

def unescape? : Bytes → Option Bytes
  | [] => some []
  | b :: rest =>
    if b = backslash then
      match rest with
      | [] => none
      | letter :: rest =>
        if letter = 'u'.toUInt8 then
          match rest with
          | h₁ :: h₂ :: h₃ :: h₄ :: rest =>
            match unit? h₁ h₂ h₃ h₄ with
            | none => none
            | some unit =>
              if isLeading unit then
                match rest with
                | s :: u :: h₁ :: h₂ :: h₃ :: h₄ :: rest =>
                  if s = backslash ∧ u = 'u'.toUInt8 then
                    match unit? h₁ h₂ h₃ h₄ with
                    | none => none
                    | some next =>
                      if isTrailing next then
                        (Utf8.encodeChar (pair unit next) ++ ·) <$> unescape? rest
                      else none
                  else none
                | _ => none
              else if isTrailing unit then none
              else (Utf8.encodeChar (Char.ofNat unit) ++ ·) <$> unescape? rest
          | _ => none
        else
          match letterValue? letter with
          | some value => (value :: ·) <$> unescape? rest
          | none => none
    else (b :: ·) <$> unescape? rest

def write (text : String) : Bytes := escape (Utf8.encode text)

def read? (raw : Bytes) : Option String := (unescape? raw).bind Utf8.decode?

end Quoted
end Chronicle.Json
