import CodelCurve.Data.Yaml.Node
import CodelCurve.Formula.Search
import CodelCurve.Layout.Fit
import CodelCurve.Picture.Basic

/-! The settings of a session, and how they are read from a YAML text. Every key may be left out and has then its
standard value; keys that are not known are passed over. -/

namespace CodelCurve

/-- The settings of a session. -/
structure Settings where
  /-- The orders of curves that are tried. -/
  orders : Layout.Orders
  /-- The search for formulas. -/
  plan : SearchPlan
  /-- How codels are drawn. -/
  style : Style
  deriving DecidableEq, Repr

/-- Why settings cannot be read. -/
inductive SettingsError where
  | io (detail : String)
  | yaml (detail : String)
  deriving DecidableEq, Repr

namespace SettingsError

def message : SettingsError → String
  | io detail => s!"IO error: {detail}"
  | yaml detail => s!"Invalid configuration: {detail}"

end SettingsError

namespace Yaml

/-- The number of digits without a sign, in base sixteen, eight or two after a mark and else in base ten, where
no zero leads. -/
def unsigned? : List Char → Option Nat
  | '0' :: 'x' :: digits => Text.numberIn? 16 digits
  | '0' :: 'o' :: digits => Text.numberIn? 8 digits
  | '0' :: 'b' :: digits => Text.numberIn? 2 digits
  | '0' :: [] => some 0
  | '0' :: _ => none
  | digits => Text.numberIn? 10 digits

/-- The integer of digits with or without a sign. -/
def signed? : List Char → Option Int
  | '+' :: digits => (unsigned? digits).map fun n => (n : Int)
  | '-' :: digits => (unsigned? digits).map fun n => -(n : Int)
  | digits => (unsigned? digits).map fun n => (n : Int)

namespace Document

/-- The text of a scalar that may be a number: a plain one, or a literal one with the tag of integers. -/
def numeral? (d : Document) (n : Node) : Option (List Char) :=
  match d.resolve n with
  | .scalar tag text style =>
    if style = .plain || (style = .literal && tag = some "tag:yaml.org,2002:int") then some text else none
  | _ => none

def int? (d : Document) (n : Node) : Option Int := (d.numeral? n).bind signed?

/-- The natural number below a bound, which carries no minus. -/
def natBelow? (bound : Nat) (d : Document) (n : Node) : Option Nat := do
  let text ← d.numeral? n
  if text.head? = some '-' then none
  let value ← signed? text
  if value.toNat < bound then some value.toNat else none

def text? (d : Document) (n : Node) : Option String :=
  match d.resolve n with
  | .scalar _ text _ => some (String.ofList text)
  | _ => none

/-- The texts that stand for nothing. -/
def isNull (text : List Char) (style : Style) : Bool :=
  text.isEmpty || (style = .plain && ["null", "Null", "NULL", "~"].contains (String.ofList text))

/-- The name that a scalar chooses: that of a tag of its own, after which there is nothing, or else its text. -/
def choice? (d : Document) (n : Node) : Option String :=
  match d.resolve n with
  | .scalar tag text style =>
    match tag.map String.toList with
    | some ('!' :: name) => if isNull text style then some (String.ofList name) else none
    | _ => some (String.ofList text)
  | _ => none

/-- The items of a list. Where nothing is written there are none. -/
def items? (d : Document) (n : Node) : Option (List Node) :=
  match d.resolve n with
  | .list items => some items
  | .scalar _ [] .plain => some []
  | _ => none

/-- The pairs of a map whose keys are scalars. Where nothing is written there are none. -/
def members? (d : Document) (n : Node) : Option (List (String × Node)) :=
  match d.resolve n with
  | .map pairs => pairs.mapM fun (k, v) => (d.text? k).map fun k => (k, v)
  | .scalar _ [] .plain => some []
  | _ => none

/-- The value of a key: the standard one if the key is not there, and none if it is there more than once or its
value cannot be read. -/
def member? {α : Type} (members : List (String × Node)) (key : String) (standard : α) (read : Node → Option α) :
    Option α :=
  match members.filter fun m => m.1 = key with
  | [] => some standard
  | [(_, v)] => read v
  | _ => none

end Document

end Yaml

namespace Settings

open Yaml (Document Node)

def standard : Settings := ⟨.standard, .standard, .standard⟩

def orders? (d : Document) (n : Node) : Option Layout.Orders := do
  let members ← d.members? n
  let first ← Document.member? members "start_iterations" Layout.Orders.standard.first (d.natBelow? 0x100000000)
  let last ← Document.member? members "max_iterations" Layout.Orders.standard.last (d.natBelow? 0x100000000)
  return ⟨first, last⟩

def sweep? (d : Document) (n : Node) : Option Sweep := (d.choice? n).bind Sweep.ofName?

def plan? (d : Document) (n : Node) : Option SearchPlan := do
  let members ← d.members? n
  let limit ← Document.member? members "limit" SearchPlan.standard.limit fun n => (d.int? n).bind Word.check
  let rounds ← Document.member? members "rounds" SearchPlan.standard.rounds (d.natBelow? 0x10000000000000000)
  let sweeps ← Document.member? members "sweeps" SearchPlan.standard.sweeps fun n => do
    (← d.items? n).mapM (sweep? d)
  return ⟨limit, rounds, sweeps⟩

def style? (d : Document) (n : Node) : Option Style := do
  let members ← d.members? n
  let codelSize ← Document.member? members "codel_size" Style.standard.codelSize (d.natBelow? 0x100000000)
  let initialColor ← Document.member? members "initial_color" Style.standard.initialColor d.text?
  return ⟨codelSize, initialColor⟩

/-- The settings that a document holds. -/
def ofDocument? (d : Document) : Option Settings := do
  let members ← d.members? d.root
  let orders ← Document.member? members "layout" .standard (orders? d)
  let plan ← Document.member? members "optimizer" .standard (plan? d)
  let style ← Document.member? members "render" .standard (style? d)
  return ⟨orders, plan, style⟩

/-- The settings in a YAML text. -/
def ofText (text : String) : Except SettingsError Settings :=
  match (Document.parse text.toList).bind ofDocument? with
  | some s => .ok s
  | none => .error (.yaml "this text holds no settings")

/-- The settings in a file. -/
def ofFile (contents : Option ByteArray) : Except SettingsError Settings :=
  match contents with
  | none => .error (.io "the file cannot be read")
  | some data =>
    match String.fromUTF8? data with
    | none => .error (.io "the file is not well-formed text")
    | some text => ofText text

def withCodelSize (s : Settings) (size : Nat) : Settings := { s with style.codelSize := size }

def withInitialColor (s : Settings) (name : String) : Settings := { s with style.initialColor := name }

def withLimit (s : Settings) (limit : Int) : Settings := { s with plan.limit := limit }

end Settings

end CodelCurve
