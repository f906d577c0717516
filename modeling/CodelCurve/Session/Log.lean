import CodelCurve.Machine.Listing
import CodelCurve.Picture.Drawing
import CodelCurve.Synthesis
import CodelCurve.Table.Dialect

/-! What a session logs. Each stage of the work has a list of events that depends only on what the stage was given,
up to the failure that ends it; an event is logged when its level is admitted. -/

namespace CodelCurve

open Layout (Token SlotReport Orders LayoutError)

/-- How much an event matters. -/
inductive Level where
  | trace
  | debug
  | info
  | warn
  | error
  | off
  deriving DecidableEq, Repr

namespace Level

def all : List Level := [trace, debug, info, warn, error, off]

def name : Level → String
  | trace => "trace"
  | debug => "debug"
  | info => "info"
  | warn => "warn"
  | error => "error"
  | off => "off"

def rank : Level → Nat
  | trace => 0
  | debug => 1
  | info => 2
  | warn => 3
  | error => 4
  | off => 5

/-- A level from which on events are logged admits those of another. -/
def admits (least other : Level) : Bool := least.rank ≤ other.rank

/-- The levels by their numbers, from none to all. -/
def numbered : List Level := [off, error, warn, info, debug, trace]

/-- The level of a number. -/
def ofNumber? (text : List Char) : Option Level := do
  if text.head? = some '-' then none
  numbered[(← Text.integer? text).toNat]?

/-- The level of a number or of a name in letters of either case. -/
def ofText? (text : List Char) : Option Level :=
  ofNumber? text <|> all.find? fun l => l.name.toList = text.map Char.toLower

/-- A part of a filter: a level for all programs whose names begin in a way. A level by itself is for all programs, and
a name by itself lets all through. -/
def ofDirective? (text : List Char) : Option (List Char × Level) :=
  match text.span (· != '=') with
  | ([], _) => none
  | (target, []) => some (((ofText? target).map fun l => ([], l)).getD (target, trace))
  | (target, [_]) => some (target, trace)
  | (target, _ :: level) => (ofText? level).map fun l => (target, l)

/-- Of the parts of a filter that hold for a program the one that says most of its name, and of several of these the
last. -/
def choose (program : List Char) (directives : List (List Char × Level)) : Level :=
  let better (best : Option (List Char × Level)) (d : List Char × Level) : Option (List Char × Level) :=
    if d.1.isPrefixOf program && best.all (fun b => b.1.length ≤ d.1.length) then some d else best
  ((directives.foldl better none).map (·.2)).getD off

/-- The level that a filter sets for a program. Its parts stand between commas; without any, only errors are logged. -/
def ofFilter? (program : String) (filter : String) : Option Level := do
  let parts := (filter.splitOn ",").filter fun part => !part.isEmpty
  if parts.isEmpty then return error
  return choose program.toList (← parts.mapM fun part => ofDirective? part.toList)

end Level

/-- Something worth a line or more in the log. -/
structure Event where
  level : Level
  text : String
  /-- Named values. -/
  fields : List (String × String)

namespace Event

def trace (text : String) : Event := ⟨.trace, text, []⟩

def debug (text : String) : Event := ⟨.debug, text, []⟩

def info (text : String) : Event := ⟨.info, text, []⟩

def warn (text : String) : Event := ⟨.warn, text, []⟩

def withFields (e : Event) (fields : List (String × String)) : Event := { e with fields }

/-- A character as it is logged. Those that could control a terminal are shown by their numbers. -/
def shown (c : Char) : List Char :=
  let digits := Nat.toDigits 16 c.toNat
  if ['\x07', '\x08', '\x0c'].contains c then ['\\', 'x', '0'] ++ digits
  else if ['\x1b', '\x7f'].contains c then ['\\', 'x'] ++ digits
  else if 0x80 ≤ c.toNat && c.toNat ≤ 0x9f then ['\\', 'u', '\x7b'] ++ digits ++ ['\x7d']
  else [c]

/-- What is logged of an event: its text and then its named values, which are left as they are. -/
def line (e : Event) : String :=
  String.ofList (e.text.toList.flatMap shown)
    ++ String.join (e.fields.map fun (name, value) => " " ++ name ++ "=" ++ value)

end Event

namespace Search

/-- The events of sweeps from a round on. -/
def sweepEvents : Nat → List Report → List Event
  | _, [] => []
  | round, r :: rest =>
    .info s!"Round {round}: cost={r.total}, {r.sweep.name}"
      :: (Event.debug "sweep finished").withFields [("round", toString round), ("sweep", r.sweep.name),
        ("improved", toString r.improved)]
      :: sweepEvents (round + 1) rest

/-- The events of a search. -/
def events (plan : SearchPlan) : List Event :=
  match ofLimit plan.limit with
  | .ok s => .info s!"Round 0: cost={s.total}" :: sweepEvents 1 (reports plan.schedule s)
  | .error _ => []

end Search

namespace Layout

def slotEvent (r : SlotReport) : Event :=
  (Event.trace "slot filled").withFields [("capacity", toString r.capacity), ("units", toString r.count),
    ("remaining", toString r.free)]

/-- The events of slots on the curve of an order. -/
def slotEvents (units : List Instruction) (order : Nat) : List Event :=
  match Token.tokenize (Curve.generate order) with
  | .ok tokens => (slotReports tokens units).map slotEvent
  | .error _ => []

/-- The event that ends an attempt. -/
def attemptEvent (order : Nat) : Except LayoutError Program → Event
  | .ok program => (Event.debug "program fits").withFields [("iterations", toString order),
      ("codels", toString program.size)]
  | .error e => (Event.debug s!"layout failed: {e.message}").withFields [("iterations", toString order)]

/-- The events of fitting units on a curve. -/
def fitEvents (units : List Instruction) (orders : Orders) : List Event :=
  (orders.attempts units).flatMap fun (order, result) => slotEvents units order ++ [attemptEvent order result]

end Layout

namespace Synthesis

/-- The events of running a program. -/
def runEvents (p : Program) : List Event :=
  p.narration.map Event.trace ++
    match p.run with
    | .ok e => [(Event.debug "program run").withFields [("codels", toString e.codels.size)]]
    | .error _ => []

/-- The events of laying out and running a program. -/
def layoutEvents (compiled : Program) (orders : Orders) : List Event :=
  Layout.fitEvents compiled.units orders ++
    match Layout.fit compiled.units orders with
    | .ok fitted =>
      .info s!"{fitted.order} Hilbert curve iterations" :: .info s!"{fitted.program.size} codels after mapping"
        :: runEvents fitted.program
    | .error _ => []

/-- The events of making a program of a text. -/
def events (text : List Char) (table : Table) (orders : Orders) : List Event :=
  .info s!"Input length = {text.length}" ::
    match compile text table with
    | .ok compiled =>
      (if 0 < skipped text then [.warn s!"Skipping {skipped text} non-printable characters"] else [])
        ++ .info s!"{compiled.size} codels before mapping" :: layoutEvents compiled orders
    | .error _ => []

end Synthesis

namespace Table

/-- The event of a table that was read or written. -/
def fileEvent (what name : String) (t : Table) : Event :=
  (Event.debug what).withFields [("path", name), ("entries", toString t.size)]

/-- The events of showing a formula of a table. -/
def formulaEvents (n : Int) (f : Formula) : List Event := [
  .info s!"{n} = {f.text}",
  .debug ("ops = " ++ String.intercalate " " (f.expand.map Op.name)),
  .debug s!"cost = {f.cost}"]

end Table

namespace Picture

/-- The event of a picture that was drawn. -/
def event (p : Picture) (initial : Color) : Event :=
  (Event.debug "codels rendered").withFields [("width", toString p.width), ("height", toString p.height),
    ("initial", initial.name)]

/-- The events of drawing codels from one colour after another. -/
def events (codels : CodelMap) (codelSize : Nat) : List Color → List Event
  | [] => []
  | c :: rest =>
    match render codels c codelSize with
    | .ok p => p.event c :: events codels codelSize rest
    | .error _ => []

end Picture

namespace Drawing

/-- The colours of the frames that are drawn. A frame that is too large is the last. -/
def drawnColors (codels : CodelMap) (codelSize : Nat) : List Color :=
  match frameColors with
  | [] => []
  | c :: rest =>
    match Picture.render codels c codelSize with
    | .ok p => if canBeFrame p then c :: rest else [c]
    | .error _ => []

/-- The events of a drawing for a file of a name. -/
def events (codels : CodelMap) (name : String) (style : Style) : List Event :=
  if isAnimationName name then Picture.events codels style.codelSize (drawnColors codels style.codelSize)
  else
    match style.color with
    | .ok c => Picture.events codels style.codelSize [c]
    | .error _ => []

end Drawing

end CodelCurve
