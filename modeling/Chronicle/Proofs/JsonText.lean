import Mathlib
import Chronicle.Json.Document
import Chronicle.Proofs.Utf8

/-!
# JSON text reads back

The text written for a term is read as that term, whatever follows it. Strings are found by their
closing quote, numerals end where no digit, point or exponent goes on, and two calls for each byte
are enough to read all of it.
-/
namespace Chronicle.Json

namespace Quoted

theorem hexValue?_hexDigit : ∀ n < 16, hexValue? (hexDigit n) = some n := by decide

/-- The four digits of an escaped control byte. -/
theorem unit?_control {n : Nat} (h : n < 0x20) :
    unit? 48 48 (hexDigit (n / 16)) (hexDigit (n % 16)) = some n := by
  have hzero : hexValue? 48 = some 0 := rfl
  have hhigh := hexValue?_hexDigit (n / 16) (by omega)
  have hlow := hexValue?_hexDigit (n % 16) (by omega)
  simp [unit?, hzero, hhigh, hlow]
  omega

/-- A byte is escaped by a letter, by its number, or not at all. -/
theorem escapeByte_cases (b : UInt8) :
    (∃ letter, escapeByte b = [backslash, letter] ∧ letter ≠ 'u'.toUInt8 ∧
      letterValue? letter = some b) ∨
    (b.toNat < 0x20 ∧ escapeByte b =
      [backslash, 'u'.toUInt8, 48, 48, hexDigit (b.toNat / 16), hexDigit (b.toNat % 16)]) ∨
    (b ≠ quote ∧ b ≠ backslash ∧ ¬ b < 0x20 ∧ escapeByte b = [b]) := by
  unfold escapeByte
  split_ifs with hquote hslash h08 h0C h0A h0D h09 hcontrol
  · exact .inl ⟨quote, rfl, by decide, by rw [hquote]; rfl⟩
  · exact .inl ⟨backslash, rfl, by decide, by rw [hslash]; rfl⟩
  · exact .inl ⟨'b'.toUInt8, rfl, by decide, by rw [h08]; rfl⟩
  · exact .inl ⟨'f'.toUInt8, rfl, by decide, by rw [h0C]; rfl⟩
  · exact .inl ⟨'n'.toUInt8, rfl, by decide, by rw [h0A]; rfl⟩
  · exact .inl ⟨'r'.toUInt8, rfl, by decide, by rw [h0D]; rfl⟩
  · exact .inl ⟨'t'.toUInt8, rfl, by decide, by rw [h09]; rfl⟩
  · exact .inr (.inl ⟨UInt8.lt_iff_toNat_lt.1 hcontrol, rfl⟩)
  · exact .inr (.inr ⟨hquote, hslash, hcontrol, rfl⟩)

theorem body?_escapeByte (b : UInt8) (rest : Bytes) :
    body? (escapeByte b ++ rest) = (body? rest).map fun p => (escapeByte b ++ p.1, p.2) := by
  rcases escapeByte_cases b with ⟨letter, hb, hu, hletter⟩ | ⟨hcontrol, hb⟩ |
    ⟨hquote, hslash, hplain, hb⟩
  · rw [hb, List.cons_append, List.cons_append, body?.eq_def]
    simp [quote, backslash, hu, hletter]
  · rw [hb]
    simp [body?, quote, backslash, unit?_control hcontrol]
  · rw [hb, List.cons_append, body?.eq_def]
    simp [hquote, hslash, hplain]

theorem body?_escape (bytes rest : Bytes) :
    body? (escape bytes ++ quote :: rest) = some (escape bytes, rest) := by
  induction bytes with
  | nil =>
    rw [show escape [] = [] from rfl, List.nil_append, body?.eq_def]
    simp
  | cons b bytes ih =>
    have hcons : escape (b :: bytes) = escapeByte b ++ escape bytes := rfl
    rw [hcons, List.append_assoc, body?_escapeByte, ih]
    rfl

theorem encodeChar_control {b : UInt8} (h : b.toNat < 0x20) :
    Utf8.encodeChar (Char.ofNat b.toNat) = [b] := by
  have hvalid : b.toNat.isValidChar := Or.inl (by omega)
  have htoNat : (Char.ofNat b.toNat).toNat = b.toNat := by simp [Char.toNat_ofNat, hvalid]
  simp [Utf8.encodeChar, htoNat, show b.toNat < 0x80 by omega]

theorem unescape?_escapeByte (b : UInt8) (rest : Bytes) :
    unescape? (escapeByte b ++ rest) = (unescape? rest).map (b :: ·) := by
  rcases escapeByte_cases b with ⟨letter, hb, hu, hletter⟩ | ⟨hcontrol, hb⟩ | ⟨-, hslash, -, hb⟩
  · rw [hb, List.cons_append, List.cons_append, unescape?.eq_def]
    simp [hu, hletter]
  · have hleading : isLeading b.toNat = false := by simp [isLeading]; omega
    have htrailing : isTrailing b.toNat = false := by simp [isTrailing]; omega
    rw [hb]
    simp [unescape?, unit?_control hcontrol, hleading, htrailing, encodeChar_control hcontrol]
  · rw [hb, List.cons_append, unescape?.eq_def]
    simp [hslash]

theorem unescape?_escape (bytes : Bytes) : unescape? (escape bytes) = some bytes := by
  induction bytes with
  | nil => simp [escape, unescape?]
  | cons b bytes ih =>
    have hcons : escape (b :: bytes) = escapeByte b ++ escape bytes := rfl
    rw [hcons, unescape?_escapeByte, ih]
    rfl

theorem read?_write (text : String) : read? (write text) = some text := by
  simp [read?, write, unescape?_escape, Utf8.decode?, Utf8.decode_encode, Except.toOption]

/-- The closing quote after `raw` is the first one that is not escaped. -/
def Closed (raw : Bytes) : Prop :=
  ∀ rest, body? (raw ++ quote :: rest) = some (raw, rest)

theorem closed_write (text : String) : Closed (write text) := body?_escape (Utf8.encode text)

end Quoted

namespace Numeral

/-- What keeps a numeral's text readable: no needless zero in front, and an exponent of at least
one digit. -/
structure WellFormed (n : Numeral) : Prop where
  whole_ne_nil : n.whole ≠ []
  no_leading_zero : ∀ ds, n.whole = Digit.zero :: ds → ds = []
  exponent_ne_nil : ∀ e ∈ n.exponent, e.digits ≠ []

def fractionText (ds : List Digit) : Bytes :=
  if ds.isEmpty then [] else point :: Digits.toBytes ds

def exponentText : Option Exponent → Bytes
  | some e => e.write
  | none => []

theorem write_eq (n : Numeral) :
    n.write = (if n.negative then [minus] else []) ++ Digits.toBytes n.whole ++
      fractionText n.fraction ++ exponentText n.exponent := by
  rfl

/-- Nothing at the front of `rest` can go on a numeral. -/
def Stops (rest : Bytes) : Prop :=
  ∀ b ∈ rest.head?, Digit.ofByte? b = none ∧ b ≠ point ∧ b ≠ 'e'.toUInt8 ∧ b ≠ 'E'.toUInt8

/-- What the text of an exponent begins with goes on no digits and no fraction. -/
theorem head_exponentText {e : Option Exponent} {rest : Bytes} (hrest : Stops rest) :
    ∀ b ∈ (exponentText e ++ rest).head?, Digit.ofByte? b = none ∧ b ≠ point := by
  intro b hb
  cases e with
  | none => exact ⟨(hrest b hb).1, (hrest b hb).2.1⟩
  | some e =>
    obtain rfl : 'e'.toUInt8 = b := by simpa [exponentText, Exponent.write] using hb
    decide

theorem head_fractionText {ds : List Digit} {rest : Bytes}
    (hrest : ∀ b ∈ rest.head?, Digit.ofByte? b = none ∧ b ≠ point) :
    ∀ b ∈ (fractionText ds ++ rest).head?, Digit.ofByte? b = none := by
  intro b hb
  cases ds with
  | nil => exact (hrest b hb).1
  | cons d ds =>
    obtain rfl : point = b := by simpa [fractionText] using hb
    decide

theorem readWhole?_append {ds : List Digit} {rest : Bytes} (hnil : ds ≠ [])
    (hzero : ∀ tail, ds = Digit.zero :: tail → tail = [])
    (hrest : ∀ b ∈ rest.head?, Digit.ofByte? b = none) :
    readWhole? (Digits.toBytes ds ++ rest) = some (ds, rest) := by
  rw [readWhole?, Digits.read_toBytes_append ds rest hrest]
  cases ds with
  | nil => exact absurd rfl hnil
  | cons d ds =>
    have hlead : ¬ (d = Digit.zero ∧ ds ≠ []) := by
      rintro ⟨rfl, hds⟩
      exact hds (hzero ds rfl)
    simp [hlead]

theorem readFraction?_append {ds : List Digit} {rest : Bytes}
    (hrest : ∀ b ∈ rest.head?, Digit.ofByte? b = none ∧ b ≠ point) :
    readFraction? (fractionText ds ++ rest) = some (ds, rest) := by
  cases ds with
  | nil =>
    cases rest with
    | nil => rfl
    | cons b rest => simp [readFraction?, fractionText, (hrest b rfl).2]
  | cons d ds =>
    have hread := Digits.read_toBytes_append (d :: ds) rest fun b hb => (hrest b hb).1
    simp [readFraction?, fractionText, hread]

theorem readExponent?_append {e : Option Exponent} {rest : Bytes}
    (he : ∀ x ∈ e, x.digits ≠ []) (hrest : Stops rest) :
    readExponent? (exponentText e ++ rest) = some (e, rest) := by
  cases e with
  | none =>
    cases rest with
    | nil => rfl
    | cons b rest =>
      obtain ⟨-, -, hlower, hupper⟩ := hrest b rfl
      simp [readExponent?, exponentText, hlower, hupper]
  | some e =>
    obtain ⟨negative, digits⟩ := e
    have hdigits : digits ≠ [] := he _ rfl
    have hread := Digits.read_toBytes_append digits rest fun b hb => (hrest b hb).1
    have hsign : plus ≠ minus := by decide
    obtain ⟨d, ds, rfl⟩ := List.exists_cons_of_ne_nil hdigits
    cases negative <;> simp [readExponent?, exponentText, Exponent.write, hread, hsign]

theorem toByte_ne_minus : ∀ d : Digit, d.toByte ≠ minus := by decide

theorem read?_write {n : Numeral} (h : n.WellFormed) {rest : Bytes} (hrest : Stops rest) :
    read? (n.write ++ rest) = some (n, rest) := by
  have hexponent := readExponent?_append h.exponent_ne_nil hrest
  have hhead : ∀ b ∈ (exponentText n.exponent ++ rest).head?, Digit.ofByte? b = none ∧ b ≠ point :=
    head_exponentText hrest
  have hfraction : readFraction? (fractionText n.fraction ++ (exponentText n.exponent ++ rest)) =
      some (n.fraction, exponentText n.exponent ++ rest) := readFraction?_append hhead
  have hwhole := readWhole?_append h.whole_ne_nil h.no_leading_zero
    (head_fractionText hhead : ∀ b ∈ (fractionText n.fraction ++ _).head?, _)
  have hplain : (Digits.toBytes n.whole ++
      (fractionText n.fraction ++ (exponentText n.exponent ++ rest))).head? ≠ some minus := by
    obtain ⟨d, ds, hds⟩ := List.exists_cons_of_ne_nil h.whole_ne_nil
    simp [hds, Digits.toBytes, toByte_ne_minus]
  rw [write_eq, List.append_assoc, List.append_assoc, List.append_assoc]
  generalize Digits.toBytes n.whole ++
    (fractionText n.fraction ++ (exponentText n.exponent ++ rest)) = text at hwhole hplain ⊢
  obtain ⟨negative, whole, fraction, exponent⟩ := n
  cases negative
  · simp [read?, hplain, hwhole, hfraction, hexponent]
  · simp [read?, hwhole, hfraction, hexponent]

theorem stops_nil : Stops [] := by simp [Stops]

theorem stops_of_mem {b : UInt8} (h : b ∈ [comma, closeBracket, closeBrace]) (rest : Bytes) :
    Stops (b :: rest) := by
  intro c hc
  obtain rfl : b = c := by simpa using hc
  simp only [List.mem_cons, List.not_mem_nil, or_false] at h
  rcases h with rfl | rfl | rfl <;> decide

/-- A numeral begins with a minus sign or a digit, and so with nothing else that opens a term. -/
def opens (b : UInt8) : Bool :=
  b ∉ [quote, openBracket, openBrace, closeBracket, 'n'.toUInt8, 't'.toUInt8, 'f'.toUInt8] ∧
    Term.isBlank b = false

theorem opens_minus : opens minus = true := by decide

theorem opens_toByte : ∀ d : Digit, opens d.toByte = true := by decide

theorem exists_write_eq_cons {n : Numeral} (h : n.WellFormed) :
    ∃ b tail, n.write = b :: tail ∧ opens b := by
  obtain ⟨d, ds, hds⟩ := List.exists_cons_of_ne_nil h.whole_ne_nil
  rw [write_eq, hds]
  cases n.negative
  · exact ⟨_, _, rfl, opens_toByte d⟩
  · exact ⟨_, _, rfl, opens_minus⟩

end Numeral

namespace Term

mutual

/-- Strings end where their text says and numerals are well formed, all through the term. -/
def Printable : Term → Prop
  | .null => True
  | .bool _ => True
  | .number n => n.WellFormed
  | .string raw => Quoted.Closed raw
  | .array items => PrintableItems items
  | .object members => PrintableMembers members

def PrintableItems : List Term → Prop
  | [] => True
  | item :: items => Printable item ∧ PrintableItems items

def PrintableMembers : List (Bytes × Term) → Prop
  | [] => True
  | (key, value) :: members => Quoted.Closed key ∧ Printable value ∧ PrintableMembers members

end

/-- A term's text begins with no blank and with no bracket that closes an array. -/
theorem exists_write_eq_cons {t : Term} (h : t.Printable) :
    ∃ b tail, t.write = b :: tail ∧ isBlank b = false ∧ b ≠ closeBracket := by
  cases t with
  | null => exact ⟨_, _, rfl, by decide, by decide⟩
  | bool b => cases b <;> exact ⟨_, _, rfl, by decide, by decide⟩
  | number n =>
    obtain ⟨b, tail, hwrite, hopens⟩ := Numeral.exists_write_eq_cons h
    simp [Numeral.opens] at hopens
    exact ⟨b, tail, hwrite, hopens.2, hopens.1.2.2.2.1⟩
  | string raw => exact ⟨quote, _, rfl, by decide, by decide⟩
  | array items =>
    cases items with
    | nil => exact ⟨_, _, rfl, by decide, by decide⟩
    | cons item items => exact ⟨openBracket, _, by rw [write]; rfl, by decide, by decide⟩
  | object members =>
    cases members with
    | nil => exact ⟨_, _, rfl, by decide, by decide⟩
    | cons member members => exact ⟨openBrace, _, by rw [write]; rfl, by decide, by decide⟩

theorem skipBlanks_cons {b : UInt8} (h : isBlank b = false) (rest : Bytes) :
    skipBlanks (b :: rest) = b :: rest := by
  simp [skipBlanks, h]

theorem after?_self (b : UInt8) (rest : Bytes) : after? [b] (b :: rest) = some rest := by
  simp [after?]

theorem after?_of_ne {b c : UInt8} (h : b ≠ c) (rest : Bytes) : after? [b] (c :: rest) = none := by
  simp [after?, h]

theorem after?_append (word rest : Bytes) : after? word (word ++ rest) = some rest := by
  simp [after?]

/-- A member's name, its quotes and the colon after it. -/
theorem readName?_append {key : Bytes} (h : Quoted.Closed key) (rest : Bytes) :
    readName? (writeString key ++ colon :: rest) = some (key, rest) := by
  have hquote : isBlank quote = false := by decide
  have hcolon : isBlank colon = false := by decide
  simp [readName?, writeString, skipBlanks_cons hquote, skipBlanks_cons hcolon, after?_self,
    h (colon :: rest)]

theorem read?_number {n : Numeral} (h : n.WellFormed) (fuel : Nat) {rest : Bytes}
    (hrest : Numeral.Stops rest) :
    read? (fuel + 1) (n.write ++ rest) = some (.number n, rest) := by
  obtain ⟨b, tail, hwrite, hopens⟩ := Numeral.exists_write_eq_cons h
  have hread := Numeral.read?_write h hrest
  rw [hwrite, List.cons_append] at hread ⊢
  simp [Numeral.opens] at hopens
  simp [read?, skipBlanks_cons hopens.2, hopens.1, hread]

mutual

/-- A written term is read before anything that follows it, with two calls for each byte. -/
theorem read?_write : ∀ (t : Term), t.Printable → ∀ (fuel : Nat) (rest : Bytes),
    2 * t.write.length < fuel → Numeral.Stops rest →
      read? fuel (t.write ++ rest) = some (t, rest)
  | .null, _, fuel + 1, rest, _, _ => by
    have hn : isBlank 'n'.toUInt8 = false := by decide
    have hnull : Utf8.encode "null" = 'n'.toUInt8 :: Utf8.encode "ull" := by decide
    have hopen : 'n'.toUInt8 ≠ quote ∧ 'n'.toUInt8 ≠ openBracket ∧ 'n'.toUInt8 ≠ openBrace := by
      decide
    simp [write, read?, hnull, skipBlanks_cons hn, hopen, after?_append]
  | .bool true, _, fuel + 1, rest, _, _ => by
    have ht : isBlank 't'.toUInt8 = false := by decide
    have htrue : Utf8.encode "true" = 't'.toUInt8 :: Utf8.encode "rue" := by decide
    have hopen : 't'.toUInt8 ≠ quote ∧ 't'.toUInt8 ≠ openBracket ∧ 't'.toUInt8 ≠ openBrace ∧
        't'.toUInt8 ≠ 'n'.toUInt8 := by decide
    simp [write, read?, htrue, skipBlanks_cons ht, hopen, after?_append]
  | .bool false, _, fuel + 1, rest, _, _ => by
    have hf : isBlank 'f'.toUInt8 = false := by decide
    have hfalse : Utf8.encode "false" = 'f'.toUInt8 :: Utf8.encode "alse" := by decide
    have hopen : 'f'.toUInt8 ≠ quote ∧ 'f'.toUInt8 ≠ openBracket ∧ 'f'.toUInt8 ≠ openBrace ∧
        'f'.toUInt8 ≠ 'n'.toUInt8 ∧ 'f'.toUInt8 ≠ 't'.toUInt8 := by decide
    simp [write, read?, hfalse, skipBlanks_cons hf, hopen, after?_append]
  | .number n, h, fuel + 1, rest, _, hrest => read?_number h fuel hrest
  | .string raw, h, fuel + 1, rest, _, _ => by
    have hquote : isBlank quote = false := by decide
    have hclosed : Quoted.body? (raw ++ quote :: rest) = some (raw, rest) := h rest
    simp [write, writeString, read?, skipBlanks_cons hquote, hclosed]
  | .array [], _, fuel + 1, rest, _, _ => by
    have hopen : isBlank openBracket = false := by decide
    have hclose : isBlank closeBracket = false := by decide
    have hquote : openBracket ≠ quote := by decide
    simp [write, read?, skipBlanks_cons hopen, skipBlanks_cons hclose, hquote, after?_self]
  | .array (item :: items), h, 1, rest, hfuel, _ => by simp [write] at hfuel
  | .array (item :: items), h, fuel + 2, rest, hfuel, _ => by
    obtain ⟨hitem, hitems⟩ : item.Printable ∧ PrintableItems items := h
    have hopen : isBlank openBracket = false := by decide
    have hquote : openBracket ≠ quote := by decide
    obtain ⟨b, tail, hwrite, hblank, hbracket⟩ := exists_write_eq_cons hitem
    have hafter : after? [closeBracket] (skipBlanks (item.write ++ (writeItems items ++ rest))) =
        none := by
      rw [hwrite, List.cons_append, skipBlanks_cons hblank, after?_of_ne hbracket.symm]
    simp [write] at hfuel
    have hread := readItems?_write items hitems fuel rest item item.write
      (fun rest hrest => read?_write item hitem fuel rest (by omega) hrest) (by omega)
    simp [write, read?, skipBlanks_cons hopen, hquote, hafter, hread]
  | .object [], _, fuel + 1, rest, _, _ => by
    have hopen : isBlank openBrace = false := by decide
    have hclose : isBlank closeBrace = false := by decide
    have hquote : openBrace ≠ quote ∧ openBrace ≠ openBracket := by decide
    simp [write, read?, skipBlanks_cons hopen, skipBlanks_cons hclose, hquote, after?_self]
  | .object (member :: members), h, 1, rest, hfuel, _ => by simp [write] at hfuel
  | .object ((key, value) :: members), h, fuel + 2, rest, hfuel, _ => by
    obtain ⟨hkey, hvalue, hmembers⟩ :
      Quoted.Closed key ∧ value.Printable ∧ PrintableMembers members := h
    have hopen : isBlank openBrace = false := by decide
    have hquote : openBrace ≠ quote ∧ openBrace ≠ openBracket := by decide
    have hafter : after? [closeBrace] (skipBlanks (writeString key ++ (colon ::
        (value.write ++ (writeMembers members ++ rest))))) = none := by
      have hquote : isBlank quote = false := by decide
      have hbrace : closeBrace ≠ quote := by decide
      rw [writeString, List.append_assoc, List.cons_append, skipBlanks_cons hquote,
        after?_of_ne hbrace]
    simp [write] at hfuel
    have hread := readMembers?_write members hmembers fuel rest key value value.write hkey
      (fun rest hrest => read?_write value hvalue fuel rest (by omega) hrest) (by omega)
    simp [write, read?, skipBlanks_cons hopen, hquote, hafter, hread]

/-- After a first item, whose reading is given. -/
theorem readItems?_write : ∀ (items : List Term), PrintableItems items →
    ∀ (fuel : Nat) (rest : Bytes) (first : Term) (text : Bytes),
      (∀ rest, Numeral.Stops rest → read? fuel (text ++ rest) = some (first, rest)) →
      2 * (writeItems items).length ≤ fuel →
        readItems? (fuel + 1) (text ++ (writeItems items ++ rest)) = some (first :: items, rest)
  | [], _, fuel, rest, first, text, hfirst, _ => by
    have hclose : isBlank closeBracket = false := by decide
    have hread := hfirst (closeBracket :: rest) (Numeral.stops_of_mem (by simp) rest)
    simp [writeItems, readItems?, hread, skipBlanks_cons hclose]
  | item :: items, h, 0, rest, first, text, hfirst, hfuel => by simp [writeItems] at hfuel
  | item :: items, h, fuel + 1, rest, first, text, hfirst, hfuel => by
    obtain ⟨hitem, hitems⟩ : item.Printable ∧ PrintableItems items := h
    have hcomma : isBlank comma = false := by decide
    have hclose : comma ≠ closeBracket := by decide
    simp [writeItems] at hfuel
    have hread := hfirst (comma :: (item.write ++ (writeItems items ++ rest)))
      (Numeral.stops_of_mem (by simp) _)
    have hnext := readItems?_write items hitems fuel rest item item.write
      (fun rest hrest => read?_write item hitem fuel rest (by omega) hrest) (by omega)
    rw [readItems?]
    simp [writeItems, hread, skipBlanks_cons hcomma, hclose, hnext]

/-- After the name of a first member, whose value's reading is given. -/
theorem readMembers?_write : ∀ (members : List (Bytes × Term)), PrintableMembers members →
    ∀ (fuel : Nat) (rest : Bytes) (key : Bytes) (value : Term) (text : Bytes), Quoted.Closed key →
      (∀ rest, Numeral.Stops rest → read? fuel (text ++ rest) = some (value, rest)) →
      2 * (writeMembers members).length ≤ fuel →
        readMembers? (fuel + 1)
          (writeString key ++ (colon :: (text ++ (writeMembers members ++ rest)))) =
            some ((key, value) :: members, rest)
  | [], _, fuel, rest, key, value, text, hkey, hvalue, _ => by
    have hclose : isBlank closeBrace = false := by decide
    have hread := hvalue (closeBrace :: rest) (Numeral.stops_of_mem (by simp) rest)
    simp [writeMembers, readMembers?, readName?_append hkey, hread, skipBlanks_cons hclose]
  | member :: members, h, 0, rest, key, value, text, _, hvalue, hfuel => by
    simp [writeMembers] at hfuel
  | (name, next) :: members, h, fuel + 1, rest, key, value, text, hkey, hvalue, hfuel => by
    obtain ⟨hname, hnext, hmembers⟩ :
      Quoted.Closed name ∧ next.Printable ∧ PrintableMembers members := h
    have hcomma : isBlank comma = false := by decide
    have hclose : comma ≠ closeBrace := by decide
    simp [writeMembers] at hfuel
    have hread := hvalue (comma :: (writeString name ++ (colon :: (next.write ++
      (writeMembers members ++ rest))))) (Numeral.stops_of_mem (by simp) _)
    have hothers := readMembers?_write members hmembers fuel rest name next next.write hname
      (fun rest hrest => read?_write next hnext fuel rest (by omega) hrest) (by omega)
    rw [readMembers?]
    simp [writeMembers, readName?_append hkey, hread, skipBlanks_cons hcomma, hclose, hothers]

end

/-- A printable term is read back from its text. -/
theorem parse?_write {t : Term} (h : t.Printable) : parse? t.write = some t := by
  have hread := read?_write t h (2 * t.write.length + 1) [] (by omega) Numeral.stops_nil
  rw [List.append_nil] at hread
  simp [parse?, hread, skipBlanks]

end Term
end Chronicle.Json
