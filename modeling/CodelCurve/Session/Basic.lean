import CodelCurve.Session.Arguments
import CodelCurve.Session.Log
import CodelCurve.Session.Shell
import CodelCurve.Settings

/-! A session: what a command line asks for is done in given surroundings. A session ends with a status, zero
when all went well, and logs the failure that ended it otherwise. -/

namespace CodelCurve

open Arguments (Invocation Draw Optimize)

/-- Why a session fails. -/
inductive Failure where
  | synthesis (e : SynthesisError)
  | table (e : TableError)
  | settings (e : SettingsError)
  | picture (e : PictureError)
  | io (detail : String)
  deriving DecidableEq, Repr

namespace Failure

def message : Failure → String
  | synthesis e => e.message
  | table e => s!"Numbers table error: {e.message}"
  | settings e => s!"Config error: {e.message}"
  | picture e => s!"Render error: {e.message}"
  | io detail => s!"IO error: {detail}"

end Failure

/-- A session in its surroundings, with the least level of events that it logs. -/
structure Session (m : Type → Type) where
  shell : Shell m
  level : Level

namespace Session

variable {m : Type → Type} [Monad m]

/-- Logs an event if its level is admitted. -/
def tell (s : Session m) (e : Event) : m Unit := if s.level.admits e.level then s.shell.report e.line else pure ()

/-- Logs events in turn. -/
def tellAll (s : Session m) : List Event → m Unit
  | [] => pure ()
  | e :: rest => do
    s.tell e
    tellAll s rest

/-- Draws codels to a file. The file of an animation is made before its pictures are drawn. -/
def saveDrawing (s : Session m) (codels : CodelMap) (name : String) (style : Style) :
    ExceptT PictureError m Unit := do
  let isAnimation := Drawing.isAnimationName name
  let refusal : PictureError := if isAnimation then .io s!"cannot write {name}" else .image s!"cannot write {name}"
  if isAnimation then
    unless ← s.shell.write name (.bytes .empty) do throw refusal
  s.tellAll (Drawing.events codels name style)
  let drawing ← Drawing.ofCodels codels name style
  unless ← s.shell.write name (.drawing drawing) do throw refusal

/-- Reads the table in a file and checks it. -/
def loadTable (s : Session m) (name : String) : ExceptT TableError m Table := do
  match ← s.shell.read name with
  | none => throw (.io s!"cannot read {name}")
  | some contents =>
    let table ← Table.ofFile .standard name contents
    s.tell (Table.fileEvent "numbers loaded" name table)
    table.validated

/-- Writes a table to a file. -/
def saveTable (s : Session m) (name : String) (table : Table) : ExceptT TableError m Unit := do
  let contents ← table.toFile .standard name
  unless ← s.shell.write name (.bytes contents) do throw (.io s!"cannot write {name}")
  s.tell (Table.fileEvent "numbers saved" name table)

/-- Makes a table by search. -/
def searchTable (s : Session m) (plan : SearchPlan) : ExceptT Failure m Table := do
  s.tellAll (Search.events plan)
  let table ← (Table.optimized plan).mapError fun e => Failure.synthesis (.build e)
  return table

/-- The text to draw a program for: the one given, that of a file, or standard input. -/
def readText (s : Session m) (args : Draw) : ExceptT Failure m String := do
  match args.input with
  | some text => return text
  | none =>
    let contents ← match args.file with
      | some name => s.shell.read name
      | none => some <$> s.shell.input
    match contents.bind String.fromUTF8? with
    | some text => return text
    | none => throw (.io "cannot read the text")

/-- What is logged of the output of a program: further lines are set in. -/
def outputEvent (output : String) : Event :=
  let text := Text.trim output.toList
  if text.contains '\n' then
    .info (String.ofList ("Output:\n   ".toList ++ Text.replace ['\n'] "\n   ".toList text))
  else .info (String.ofList ("Output: ".toList ++ text))

/-- Draws a program for a text. -/
def draw (s : Session m) (args : Draw) (settings : Settings) : ExceptT Failure m Unit := do
  let settings := match args.codelSize with
    | some size => settings.withCodelSize size
    | none => settings
  let settings := match args.initialColor with
    | some name => settings.withInitialColor name
    | none => settings
  let _ ← settings.style.color.mapError Failure.picture
  let text ← s.readText args
  let table ← match args.numbers with
    | some name => (s.loadTable name).adapt Failure.table
    | none => s.searchTable settings.plan
  s.tellAll (Synthesis.events text.toList table settings.orders)
  let synthesis ← (synthesize text.toList table settings.orders).mapError Failure.synthesis
  if args.disassemble then s.shell.print (synthesis.program.listing true)
  s.tell (outputEvent synthesis.output)
  s.tell (.info s!"Saving program to {args.out}")
  (s.saveDrawing synthesis.execution.codels args.out settings.style).adapt Failure.picture
  s.shell.print (synthesis.output ++ "\n")

/-- Logs the formulas of numbers in turn. -/
def showFormulas (s : Session m) (table : Table) : List Nat → ExceptT Failure m Unit
  | [] => pure ()
  | n :: rest => do
    let f ← (table.get n).mapError fun e => Failure.synthesis (.build e)
    s.tellAll (Table.formulaEvents n f)
    showFormulas s table rest

/-- Makes a table, saves it and shows it, or shows one that was saved. -/
def optimize (s : Session m) (args : Optimize) (settings : Settings) : ExceptT Failure m Unit := do
  let settings := match args.limit with
    | some limit => settings.withLimit limit
    | none => settings
  unless args.showOnly do
    let table ← s.searchTable settings.plan
    s.tell (.info s!"Saving numbers to {args.file}")
    (s.saveTable args.file table).adapt Failure.table
  let table ← (s.loadTable args.file).adapt Failure.table
  s.showFormulas table (interval 1 settings.plan.limit.toNat)

/-- The settings that a command line asks for. -/
def settings (s : Session m) (invocation : Invocation) : ExceptT Failure m Settings := do
  match invocation.config with
  | some name => (Settings.ofFile (← s.shell.read name)).mapError Failure.settings
  | none => return .standard

/-- Does what a command asks for. -/
def command (s : Session m) (invocation : Invocation) : ExceptT Failure m Unit := do
  let settings ← s.settings invocation
  match invocation.command with
  | .draw args => s.draw args settings
  | .optimize args => s.optimize args settings

/-- The name of the program, as filters and the version have it. -/
def programName : String := "hilbertpiet"

def version : String := "hilbertpiet 0.3.0\n"

def usage : String := "Usage: hilbertpiet [-v] [--config <FILE>] draw|optimize ...\n"

/-- The level from which on events are logged: that of the filter if there is one, else by whether the session is
to be verbose. -/
def levelOf (filter : Option String) (verbose : Bool) : Level :=
  (filter.bind (Level.ofFilter? programName)).getD (if verbose then .debug else .info)

/-- Does what the words of a command line ask for and answers with the status. -/
def run (shell : Shell m) (filter : Option String) (words : List String) : m UInt32 := do
  match Arguments.parse words with
  | .misuse =>
    shell.report "error: this is no proper command line"
    return 2
  | .version =>
    shell.print version
    return 0
  | .help =>
    shell.print usage
    return 0
  | .run invocation =>
    let s : Session m := ⟨shell, levelOf filter invocation.verbose⟩
    match ← (s.command invocation).run with
    | .ok _ => return 0
    | .error e =>
      shell.report s!"Error: {e.message}"
      return 1

end Session

end CodelCurve
