import Chronicle.CommandLine.Flags
import Chronicle.Text.Utf8

/-!
# Commands

The commands of the inspector, their flags and the help that describes them.
-/
namespace Chronicle.CommandLine

inductive Command
  | status
  | log (partition : UInt8) (start : UInt64) (limit : Nat)
  /-- Slots `first` to `last`; `name` is an alias when `byAlias`. -/
  | item (name : String) (tag : UInt16) (first last : Nat) (byAlias : Bool)
  | schema (vsn : Option Nat)
  deriving DecidableEq, Repr

/-- What a command line asks for. -/
inductive Request
  | run (path : String) (command : Command)
  | print (text : String)
  | usage
  deriving DecidableEq, Repr

def programName : String := "eventide"
def programVersion : String := "0.1.0"

namespace Shape

def top : Shape :=
  ⟨programName, "Command-line inspector for eventide stores",
    [⟨some 'd', "db-path", some "DB_PATH", "Path to the database directory", some "./data"⟩,
      ⟨some 'v', "verbose", none, "Enable verbose logging", none⟩, .help, .version], []⟩

def status : Shape := ⟨"status", "Database information and status", [.help, .version], []⟩

def log : Shape :=
  ⟨"log", "Print raw events of one log partition",
    [⟨some 'p', "partition", some "PARTITION", "Partition to read", some "1"⟩,
      ⟨none, "from", some "FROM", "Start at this timestamp (nanoseconds)", some "0"⟩,
      ⟨some 'l', "limit", some "LIMIT", "Maximum number of events to print", some "100"⟩,
      .help, .version], []⟩

def item : Shape :=
  ⟨"item", "Print an item's events, aliases and views",
    [⟨some 't', "type-tag", some "TYPE_TAG", "Item type tag", some "1"⟩,
      ⟨none, "from", some "FROM", "First slot to load", some "0"⟩,
      ⟨none, "to", some "TO", "Last slot to load (0 = to the end)", some "0"⟩,
      ⟨none, "alias", none, "Resolve `id` as an alias first", none⟩, .help, .version],
    [("ID", "Item id bytes (UTF-8)")]⟩

def schema : Shape :=
  ⟨"schema", "Print the schema registry",
    [⟨none, "at", some "AT", "Rebuild the registry as of this version instead of the latest",
        none⟩, .help, .version], []⟩

def commands : List Shape := [status, log, item, schema]

def helpLine : String × String :=
  ("help", "Print this message or the help of the given subcommand(s)")

end Shape

/-! ## Help -/

def padRight (width : Nat) (text : String) : String :=
  text ++ String.ofList (List.replicate (width - text.length) ' ')

def padLeft (width : Nat) (text : String) : String :=
  String.ofList (List.replicate (width - text.length) ' ') ++ text

/-- Two columns, the first as wide as its widest entry. -/
def columns (rows : List (String × String)) : String :=
  let width := (rows.map fun row => row.1.length).foldl max 0
  String.join (rows.map fun row => s!"  {padRight width row.1}  {row.2}\n")

def Flag.row (flag : Flag) : String × String :=
  let short := match flag.short with
    | some c => s!"-{c}, "
    | none => "    "
  let value := match flag.value with
    | some name => s!" <{name}>"
    | none => ""
  let usual := match flag.usual with
    | some text => s!" [default: {text}]"
    | none => ""
  (s!"{short}--{flag.long}{value}", s!"{flag.about}{usual}")

namespace Shape

/-- The help of a command, or that of the program with the list of its commands. -/
def help (shape : Shape) (commands : List Shape) : String :=
  let name := if shape.name = programName then programName else s!"{programName} {shape.name}"
  let options := if shape.flags.length ≤ 2 then "" else " [OPTIONS]"
  let words := String.join (shape.words.map fun word => s!" <{word.1}>")
  let command := if commands.isEmpty then "" else " <COMMAND>"
  let list :=
    if commands.isEmpty then ""
    else "Commands:\n" ++ columns (commands.map (fun c => (c.name, c.about)) ++ [helpLine]) ++ "\n"
  let arguments :=
    if shape.words.isEmpty then ""
    else "Arguments:\n" ++ columns (shape.words.map fun word => (s!"<{word.1}>", word.2)) ++ "\n"
  s!"{shape.about}\n\nUsage: {name}{options}{words}{command}\n\n{list}{arguments}Options:\n"
    ++ columns (shape.flags.map Flag.row)

def helpOnHelp : String :=
  s!"{helpLine.2}\n\nUsage: {programName} help [COMMAND]...\n\nArguments:\n"
    ++ columns [("[COMMAND]...", "Print help for the subcommand(s)")]

def helpText (shape : Shape) : String :=
  shape.help (if shape.name = programName then commands else [])

def versionText (shape : Shape) : String :=
  if shape.name = programName then s!"{programName} {programVersion}\n"
  else s!"{programName}-{shape.name} {programVersion}\n"

/-- The text that a question in a command's pieces asks for. -/
def printed? (shape : Shape) (pieces : List Piece) : Option String :=
  (Piece.question? pieces).map fun long =>
    if long = Flag.version.long then shape.versionText else shape.helpText

end Shape

/-! ## Reading -/

def wordLimit : Nat := 0xFFFFFFFFFFFFFFFF

namespace Command

def logOf? (pieces : List Piece) : Option Command := do
  let partition ← Piece.value? "partition" 1 (signedNumber? 255) pieces
  let start ← Piece.value? "from" 0 (number? wordLimit) pieces
  let limit ← Piece.value? "limit" 100 (number? wordLimit) pieces
  return .log (UInt8.ofNat partition) (UInt64.ofNat start) limit

def itemOf? (name : String) (pieces : List Piece) : Option Command := do
  let tag ← Piece.value? "type-tag" 1 (signedNumber? 65535) pieces
  let first ← Piece.value? "from" 0 (number? wordLimit) pieces
  let last ← Piece.value? "to" 0 (number? wordLimit) pieces
  let byAlias ← Piece.switch? "alias" pieces
  return .item name (UInt16.ofNat tag) first last byAlias

def schemaOf? (pieces : List Piece) : Option Command := do
  let vsn ← Piece.value? "at" none (fun text => some <$> number? wordLimit text) pieces
  return .schema vsn

/-- The command of a shape from its first word and its settings. -/
def ofPieces? (shape : Shape) (pieces : List Piece) : Option Command :=
  match shape.name with
  | "status" => some .status
  | "log" => logOf? pieces
  | "item" => itemOf? ((Piece.words pieces).headD "") pieces
  | "schema" => schemaOf? pieces
  | _ => none

end Command

namespace Request

/-- The help of a command named after `help`. -/
def helpFor : List String → Request
  | [] => .print Shape.top.helpText
  | [name] =>
    match Shape.commands.find? fun shape => shape.name = name with
    | some shape => .print shape.helpText
    | none => if name = Shape.helpLine.1 then .print Shape.helpOnHelp else .usage
  | _ => .usage

/-- What stands before a question has to be in order, but no word need be there. Without a
`path` nothing can be run, and only questions are answered. -/
def ofCommand (path : Option String) (shape : Shape) (args : List String) : Request :=
  match Piece.read? shape.flags false none args with
  | none => .usage
  | some (pieces, _) =>
    let given := (Piece.words pieces).length
    match Command.ofPieces? shape pieces with
    | none => .usage
    | some command =>
      if shape.words.length < given then .usage
      else
        match shape.printed? pieces with
        | some text => .print text
        | none =>
          match path with
          | some path => if given = shape.words.length then .run path command else .usage
          | none => .usage

/-- The database directory that the flags before the command name. -/
def path? (pieces : List Piece) : Option String := do
  let _ ← Piece.switch? "verbose" pieces
  let path ← Piece.value? "db-path" "./data" some pieces
  if path.isEmpty then none else some path

/-- Reads the arguments of the program. A question to a command is answered before a directory
that stands right before the command is looked at. -/
def parse (args : List String) : Request :=
  match Piece.read? Shape.top.flags true none args with
  | none => .usage
  | some (pieces, rest) =>
    if (path? (Piece.settled pieces)).isNone then .usage
    else
      match Shape.top.printed? pieces, rest with
      | some text, _ => .print text
      | none, [] => .usage
      | none, name :: args =>
        if name = Shape.helpLine.1 then helpFor args
        else
          match Shape.commands.find? fun shape => shape.name = name with
          | some shape => ofCommand (path? pieces) shape args
          | none => .usage

end Request
end Chronicle.CommandLine
