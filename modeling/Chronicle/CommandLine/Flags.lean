/-!
# Command-line flags

A command takes flags, with or without a value, and words. `Piece.read?` sorts the arguments
of a command by a table of its flags: a value may follow its flag as the next argument, after
`=`, or directly after a one-letter flag, and one-letter flags without values may be run
together. After `--` everything is a word. A flag that asks for a text ends the reading.
-/
namespace Chronicle.CommandLine

structure Flag where
  short : Option Char
  long : String
  /-- What the value is called, for a flag that takes one. -/
  value : Option String
  about : String
  usual : Option String := none
  deriving Repr

/-- The flags of a command and the words it takes. -/
structure Shape where
  name : String
  about : String
  flags : List Flag
  /-- The words, each with what it is. -/
  words : List (String × String)
  deriving Repr

namespace Flag

def help : Flag := ⟨some 'h', "help", none, "Print help", none⟩
def version : Flag := ⟨some 'V', "version", none, "Print version", none⟩

/-- Whether the flag asks for a text in place of a run. -/
def asks (flag : Flag) : Bool := flag.long = help.long ∨ flag.long = version.long

end Flag

inductive Piece
  | setting (long : String) (value : Option String)
  /-- A flag whose value is an argument of its own. -/
  | spaced (long value : String)
  | word (text : String)
  /-- A flag that asks for a text; nothing stands after it. -/
  | question (long : String)
  deriving DecidableEq, Repr

/-- An argument that looks like a flag is never taken for the value of another one. -/
def looksLikeFlag (arg : String) : Bool := arg.startsWith "-" ∧ arg ≠ "-"

/-- Splits at the first `=`. -/
def splitValue (text : List Char) : List Char × Option (List Char) :=
  match text.span (· ≠ '=') with
  | (name, _ :: value) => (name, some value)
  | (name, []) => (name, none)

namespace Piece

/-- Sorts the letters of one argument. The last of them may ask for the next argument. -/
def letters? (flags : List Flag) : List Char → Option (List Piece × Option String)
  | [] => some ([], none)
  | c :: rest =>
    match flags.find? fun flag => flag.short = some c with
    | none => none
    | some flag =>
      if flag.asks then some ([.question flag.long], none)
      else if flag.value.isNone then
        (letters? flags rest).map fun p => (.setting flag.long none :: p.1, p.2)
      else
        match rest with
        | [] => some ([], some flag.long)
        | '=' :: value => some ([.setting flag.long (some (String.ofList value))], none)
        | value => some ([.setting flag.long (some (String.ofList value))], none)

/-- Sorts one argument that begins with `--`. -/
def long? (flags : List Flag) (text : List Char) : Option (List Piece × Option String) :=
  let (name, value) := splitValue text
  match flags.find? fun flag => flag.long = String.ofList name with
  | none => none
  | some flag =>
    match flag.value, value with
    | none, none =>
      some ([if flag.asks then .question flag.long else .setting flag.long none], none)
    | none, some _ => none
    | some _, some value => some ([.setting flag.long (some (String.ofList value))], none)
    | some _, none => some ([], some flag.long)

/-- The question among the pieces of a command. -/
def question? (pieces : List Piece) : Option String :=
  pieces.findSome? fun
    | .question long => some long
    | _ => none

/-- Sorts arguments; `pending` is a flag that waits for its value. With `lead`, only what stands
before the first word is sorted, and the word and what follows it are left over. -/
def read? (flags : List Flag) (lead : Bool) :
    Option String → List String → Option (List Piece × List String)
  | none, [] => some ([], [])
  | some _, [] => none
  | some long, arg :: args =>
    if looksLikeFlag arg then none
    else (read? flags lead none args).map fun p => (.spaced long arg :: p.1, p.2)
  | none, arg :: args =>
    match arg.toList with
    | ['-', '-'] => if lead then none else some (args.map .word, [])
    | '-' :: '-' :: text =>
      match long? flags text with
      | none => none
      | some (found, pending) =>
        if (question? found).isSome then some (found, [])
        else (read? flags lead pending args).map fun p => (found ++ p.1, p.2)
    | '-' :: c :: text =>
      match letters? flags (c :: text) with
      | none => none
      | some (found, pending) =>
        if (question? found).isSome then some (found, [])
        else (read? flags lead pending args).map fun p => (found ++ p.1, p.2)
    | _ =>
      if lead then some ([], arg :: args)
      else (read? flags lead none args).map fun p => (.word arg :: p.1, p.2)

/-- The pieces that are looked at before a word after them is. A value in an argument of its own
right before the word has to wait until the word is done with. -/
def settled (pieces : List Piece) : List Piece :=
  match pieces.getLast? with
  | some (.spaced _ _) => pieces.dropLast
  | _ => pieces

def words (pieces : List Piece) : List String :=
  pieces.filterMap fun
    | .word text => some text
    | _ => none

/-- The values given for a flag, `none` standing for a flag without one. -/
def given (long : String) (pieces : List Piece) : List (Option String) :=
  pieces.filterMap fun
    | .setting other value => if other = long then some value else none
    | .spaced other value => if other = long then some (some value) else none
    | _ => none

/-- Whether a flag without a value is there. No flag may be repeated. -/
def switch? (long : String) (pieces : List Piece) : Option Bool :=
  match given long pieces with
  | [] => some false
  | [_] => some true
  | _ => none

/-- The value of a flag, or `usual` when it is not there. -/
def value? {α : Type} (long : String) (usual : α) (parse : String → Option α)
    (pieces : List Piece) : Option α :=
  match given long pieces with
  | [] => some usual
  | [some text] => parse text
  | _ => none

end Piece

/-! ## Numbers -/

def digits? (text : List Char) : Option Nat :=
  if text.isEmpty ∨ text.any fun c => ¬ c.isDigit then none
  else some (text.foldl (fun n c => 10 * n + (c.toNat - '0'.toNat)) 0)

/-- A number from 0 to `limit`; a plus sign may stand before it. -/
def number? (limit : Nat) (text : String) : Option Nat := do
  let n ← match text.toList with
    | '+' :: rest => digits? rest
    | all => digits? all
  if n ≤ limit then some n else none

/-- Like `number?`, with zero also as `-0`. -/
def signedNumber? (limit : Nat) (text : String) : Option Nat :=
  match text.toList with
  | '-' :: rest => if digits? rest = some 0 then some 0 else none
  | _ => number? limit text

end Chronicle.CommandLine
