import CodelCurve.Text.Digits
import CodelCurve.Word

/-! The arguments of the command line. Options have a long name and perhaps a letter; those that take a value take
it from the rest of the word or from the next word, which must not look like an option. A command follows the
options that hold for all commands, and these may come after it as well. -/

namespace CodelCurve.Arguments

/-- An option of the command line. -/
structure Flag where
  name : String
  letter : Option Char
  takesValue : Bool
  deriving DecidableEq, Repr

/-- The arguments for drawing a program. -/
structure Draw where
  out : String
  input : Option String
  file : Option String
  codelSize : Option Nat
  initialColor : Option String
  numbers : Option String
  disassemble : Bool
  deriving DecidableEq, Repr

/-- The arguments for making a table. -/
structure Optimize where
  file : String
  limit : Option Int
  showOnly : Bool
  deriving DecidableEq, Repr

inductive Command where
  | draw (args : Draw)
  | optimize (args : Optimize)
  deriving DecidableEq, Repr

/-- A command with the options that hold for all commands. -/
structure Invocation where
  verbose : Bool
  config : Option String
  command : Command
  deriving DecidableEq, Repr

/-- What the words of a command line ask for. -/
inductive Request where
  | run (invocation : Invocation)
  | version
  | help
  /-- The words are no proper command line. -/
  | misuse
  deriving DecidableEq, Repr

/-- A part of a command line. -/
inductive Part where
  | flag (flag : Flag) (value : Option String)
  | word (text : String)
  /-- The first word and all that follows it. -/
  | command (name : String) (rest : List String)
  | malformed
  deriving DecidableEq, Repr

/-- A word can be the value of an option before it. -/
def isValue (word : String) : Bool := word = "-" || !word.startsWith "-"

/-- The parts of a word that begins with two dashes, and the option whose value is missing. -/
def longFlag (flags : List Flag) (text : List Char) : List Part × Option Flag :=
  let (name, rest) := text.span (· != '=')
  match flags.find? fun f => f.name.toList = name, rest with
  | some f, [] => if f.takesValue then ([], some f) else ([.flag f none], none)
  | some f, _ :: value => if f.takesValue then ([.flag f (some (String.ofList value))], none) else ([.malformed], none)
  | none, _ => ([.malformed], none)

/-- The parts of the letters after a dash, and the option whose value is missing. -/
def letters (flags : List Flag) : List Char → List Part × Option Flag
  | [] => ([], none)
  | c :: rest =>
    match flags.find? fun f => f.letter = some c with
    | none => ([.malformed], none)
    | some f =>
      if f.takesValue then
        match rest with
        | [] => ([], some f)
        | '=' :: value => ([.flag f (some (String.ofList value))], none)
        | value => ([.flag f (some (String.ofList value))], none)
      else
        let (parts, missing) := letters flags rest
        (.flag f none :: parts, missing)

/-- The parts of a word, and the option whose value is missing. -/
def wordParts (flags : List Flag) (word : String) : List Part × Option Flag :=
  match word.toList with
  | '-' :: '-' :: text => longFlag flags text
  | ['-'] => ([.word word], none)
  | '-' :: text => letters flags text
  | _ => ([.word word], none)

/-- The parts of a command line. At the first word they end with a command if one is expected. -/
def parts (flags : List Flag) (command : Bool) : List String → List Part
  | [] => []
  | "--" :: rest => if command then (if rest.isEmpty then [] else [.malformed]) else rest.map .word
  | w :: rest =>
    match wordParts flags w with
    | ([.word name], _) => if command then [.command name rest] else .word name :: parts flags command rest
    | (found, none) => found ++ parts flags command rest
    | (found, some f) =>
      match rest with
      | value :: rest =>
        if isValue value then found ++ .flag f (some value) :: parts flags command rest else found ++ [.malformed]
      | [] => found ++ [.malformed]

def verboseFlag : Flag := ⟨"verbose", some 'v', false⟩

def configFlag : Flag := ⟨"config", none, true⟩

def helpFlag : Flag := ⟨"help", some 'h', false⟩

def versionFlag : Flag := ⟨"version", some 'V', false⟩

/-- The options that hold for all commands. -/
def sharedFlags : List Flag := [verboseFlag, configFlag, helpFlag]

/-- The options before a command. -/
def leadingFlags : List Flag := versionFlag :: sharedFlags

def drawFlags : List Flag := sharedFlags ++ [
  ⟨"out", some 'o', true⟩, ⟨"input", some 'i', true⟩, ⟨"file", some 'f', true⟩, ⟨"codel-size", some 'n', true⟩,
  ⟨"initial-color", some 'c', true⟩, ⟨"numbers", none, true⟩, ⟨"disassemble", none, false⟩]

def optimizeFlags : List Flag := sharedFlags ++ [⟨"limit", none, true⟩, ⟨"show-only", none, false⟩]

/-- The options whose values name files, which have to have a name. -/
def fileOptions : List String := ["config", "out", "file", "numbers"]

/-- A natural number of 32 bits. -/
def size? (text : String) : Option Nat := do
  let n ← Text.integer? text.toList
  if 0 ≤ n ∧ n < 0x100000000 then some n.toNat else none

/-- An integer of 64 bits. -/
def number? (text : String) : Option Int := (Text.integer? text.toList).bind Word.check

/-- A value is one that its option takes. -/
def accepts (name value : String) : Bool :=
  if fileOptions.contains name then value != ""
  else if name = "codel-size" then (size? value).isSome
  else if name = "limit" then (number? value).isSome
  else true

/-- The options and words of a command line so far. -/
structure Seen where
  flags : List (String × Option String)
  words : List String

namespace Seen

def nothing : Seen := ⟨[], []⟩

def has (s : Seen) (name : String) : Bool := s.flags.any fun f => f.1 = name

def value? (s : Seen) (name : String) : Option String := (s.flags.find? fun f => f.1 = name).bind (·.2)

/-- Adds an option, which may be given once and with a value that it takes. -/
def add? (s : Seen) (f : Flag) (value : Option String) : Option Seen :=
  if s.has f.name || !(value.all (accepts f.name)) then none else some { s with flags := (f.name, value) :: s.flags }

end Seen

/-- What the arguments of a command come to. -/
inductive Scan where
  | seen (seen : Seen)
  | help
  | misuse

/-- Goes through the parts after a command that takes a number of words. -/
def scan (places : Nat) : Seen → List Part → Scan
  | s, [] => .seen s
  | s, .flag f value :: rest =>
    if f = helpFlag then .help
    else
      match s.add? f value with
      | some s => scan places s rest
      | none => .misuse
  | s, .word text :: rest =>
    if s.words.length < places && text != "" then scan places { s with words := s.words ++ [text] } rest else .misuse
  | _, _ => .misuse

/-- The options that hold for all commands, from before and after the command. The latter count. -/
def invocation (before after : Seen) (command : Command) : Invocation :=
  ⟨before.has "verbose" || after.has "verbose", after.value? "config" <|> before.value? "config", command⟩

/-- The arguments for drawing. The text is given in one way at most. -/
def draw? (s : Seen) : Option Draw :=
  match s.value? "out" with
  | some out =>
    if s.has "input" && s.has "file" then none
    else some ⟨out, s.value? "input", s.value? "file", (s.value? "codel-size").bind size?, s.value? "initial-color",
      s.value? "numbers", s.has "disassemble"⟩
  | none => none

/-- The arguments for making a table. -/
def optimize? (s : Seen) : Option Optimize :=
  match s.words with
  | [file] => some ⟨file, (s.value? "limit").bind number?, s.has "show-only"⟩
  | _ => none

/-- What help can be asked on. -/
def helpTopics : List (List String) := [[], ["draw"], ["optimize"], ["help"]]

/-- What a command and its arguments ask for, given the options before it. -/
def ofCommand (before : Seen) (name : String) (rest : List String) : Request :=
  if name = "draw" then
    match scan 0 .nothing (parts drawFlags false rest) with
    | .seen s => ((draw? s).map fun d => .run (invocation before s (.draw d))).getD .misuse
    | .help => .help
    | .misuse => .misuse
  else if name = "optimize" then
    match scan 1 .nothing (parts optimizeFlags false rest) with
    | .seen s => ((optimize? s).map fun o => .run (invocation before s (.optimize o))).getD .misuse
    | .help => .help
    | .misuse => .misuse
  else if name = "help" && helpTopics.contains rest then .help
  else .misuse

/-- Goes through the parts before a command. -/
def scanLeading : Seen → List Part → Request
  | s, .flag f value :: rest =>
    if f = versionFlag then .version
    else if f = helpFlag then .help
    else
      match s.add? f value with
      | some s => scanLeading s rest
      | none => .misuse
  | s, .command name rest :: _ => ofCommand s name rest
  | _, _ => .misuse

/-- What the words of a command line ask for. -/
def parse (words : List String) : Request := scanLeading .nothing (parts leadingFlags true words)

end CodelCurve.Arguments
