import Chronicle.CommandLine.Command
import Chronicle.Item.Alias
import Chronicle.Item.View
import Chronicle.Registry.History

/-!
# Reports

What each command prints about a store. A report that fails keeps the lines printed so far
and says what it was about.
-/
namespace Chronicle.CommandLine

structure Failure where
  context : String
  cause : Fault
  deriving Repr

/-- The cause stands below its context, every line of it indented. -/
def Failure.text (f : Failure) : String :=
  let lines := (f.cause.message.splitOn "\n").map fun line => s!"    {line}"
  s!"Error: {f.context}\n\nCaused by:\n" ++ String.intercalate "\n" lines ++ "\n"

/-- What a run of the program leaves behind. -/
structure Transcript where
  code : Nat
  printed : String
  failure : Option Failure
  deriving Repr

abbrev Report (α : Type) := EStateM Failure String α

namespace Report

def line (text : String) : Report Unit := modify fun printed => printed ++ text ++ "\n"

def lines (texts : List String) : Report Unit := texts.forM line

/-- Takes a reading that the report depends on. -/
def take {α : Type} (context : String) (outcome : Outcome α) : Report α :=
  match outcome with
  | .ok a => pure a
  | .error fault => throw ⟨context, fault⟩

end Report

def rule : String := String.ofList (List.replicate 60 '=')

/-- The beginning of a byte string as text. -/
def preview (bytes : Bytes) (most : Nat) : String :=
  Utf8.lossy (bytes.take most) ++ if most < bytes.length then "…" else ""

/-! ## Status -/

def countPartition (keys : KeySpace) (partition : UInt8) : Outcome Nat := do
  let page ← Log.fold keys (.first partition) (.last partition) wordLimit 0 fun n _ => .ok (n + 1)
  return page.events

/-- Prints one partition and answers the number of its events. -/
def reportPartition (keys : KeySpace) (partition : Nat) : Report Nat := do
  let count ← Report.take s!"Failed to scan partition {partition}"
    (countPartition keys (UInt8.ofNat partition))
  if 0 < count then Report.line s!"  {padLeft 3 (toString partition)}: {count} event(s)"
  return count

def reportStatus (path : String) (keys : KeySpace) : Report Unit := do
  Report.lines ["", "Database Status", rule, s!"Path: {path}"]
  let vsn ← Report.take "Failed to read schema version" (Registry.latestVersion keys)
  Report.lines [s!"Schema Version: {vsn}", "", "Log Partitions:"]
  let counts ← (List.range 256).mapM (reportPartition keys)
  let total := counts.foldl (· + ·) 0
  Report.line (if total = 0 then "  (empty)" else s!"  Total: {total} event(s)")

/-! ## Log -/

def logLine (e : LogEvent) : String :=
  let id := padRight 28 e.id.text
  let mark := padRight 2 (toString e.mark)
  let size := padLeft 6 (toString e.payload.length)
  s!"{id} kind={mark} {size}B  {preview e.payload 40}"

def reportLog (keys : KeySpace) (partition : UInt8) (start : UInt64) (limit : Nat) :
    Report Unit := do
  let page ← Report.take "Failed to read log"
    (Log.range keys ⟨partition, start, 0⟩ (.last partition) limit)
  Report.lines ["", s!"Partition {partition} ({page.events.length} event(s))", rule]
  Report.lines (page.events.map logLine)
  match page.next with
  | some next => Report.lines ["", s!"More events follow; continue with --from {next.timestamp}"]
  | none => pure ()

/-! ## Item -/

structure ItemReport where
  loaded : Item.Loaded
  aliases : List ItemId
  views : List (Bytes × Option Checkpoint)

def readItem (keys : KeySpace) (requested : ItemId) (first last : Nat) (byAlias : Bool) :
    Outcome ItemReport := do
  let id ← if byAlias then Item.resolve keys requested else pure requested
  let loaded ← Item.load keys id first last
  let aliases ← Item.aliases keys id
  let names ← Item.viewNames keys id
  let views ← names.mapM fun name => do return (name, ← Item.checkpoint? keys id name)
  return ⟨loaded, aliases, views⟩

def viewLine (view : Bytes × Option Checkpoint) : String :=
  let folded := match view.2 with
    | some checkpoint => checkpoint.vsn.toNat
    | none => 0
  s!"  {preview view.1 40} (folded {folded} slot(s))"

def eventLine (slot : Nat) (e : Event) : String :=
  let number := padLeft 4 (toString slot)
  let id := padRight 28 e.id.text
  let kind := padRight 2 (toString e.kind)
  let eventType := padRight 20 (preview e.eventType 20)
  s!"  [{number}] {id} kind={kind} {eventType} {preview e.payload 40}"

def section? (title : String) (texts : List String) : List String :=
  if texts.isEmpty then [] else "" :: title :: texts

def reportItem (keys : KeySpace) (requested : ItemId) (first last : Nat) (byAlias : Bool) :
    Report Unit := do
  let item ← Report.take s!"Failed to load item {requested.text}"
    (readItem keys requested first last byAlias)
  Report.lines ["", s!"Item {item.loaded.id.text}", rule,
    s!"Latest Version: {item.loaded.latest}"]
  match item.loaded.through with
  | some slot => Report.line s!"Loaded Through: {slot}"
  | none => pure ()
  Report.lines (section? "Aliases:" (item.aliases.map fun aliasId => s!"  {aliasId.text}"))
  Report.lines (section? "Views:" (item.views.map viewLine))
  Report.lines ["", "Events:"]
  Report.lines (item.loaded.events.mapIdx fun offset e => eventLine (first + offset) e)

/-! ## Schema -/

def entityLines (name : String) (e : EntityType Payload.Schema) : List String :=
  ["", s!"{name} (v{e.vsn})"] ++ e.toList.map fun entry =>
    s!"  {entry.1.name}@{entry.1.number}: {entry.2.text}"

def reportSchema (keys : KeySpace) (vsn : Option Nat) : Report Unit := do
  let r ← Report.take "Failed to rebuild schema"
    (match vsn with
    | some vsn => Registry.atVersion keys vsn
    | none => Registry.current keys)
  Report.lines ["", s!"Schema v{r.vsn}", rule]
  if r.toList.isEmpty then Report.line "No entity types registered"
  else Report.lines (r.toList.flatMap fun entry => entityLines entry.1 entry.2)

/-! ## Runs -/

def report (path : String) (keys : KeySpace) : Command → Report Unit
  | .status => reportStatus path keys
  | .log partition start limit => reportLog keys partition start limit
  | .item name tag first last byAlias =>
    reportItem keys ⟨tag, Utf8.encode name⟩ first last byAlias
  | .schema vsn => reportSchema keys vsn

/-- Runs a command on a store. -/
def run (path : String) (keys : KeySpace) (command : Command) : Transcript :=
  match (report path keys command).run "" with
  | .ok _ printed => ⟨0, printed, none⟩
  | .error failure printed => ⟨1, printed, some failure⟩

/-- The exit code of a command line that cannot be read. -/
def usageCode : Nat := 2

end Chronicle.CommandLine
