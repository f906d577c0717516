import CodelCurve.Data.Yaml.Token

/-! The nodes of a YAML document: scalars, lists and maps, and aliases, which stand for nodes that were given an
anchor. -/

namespace CodelCurve.Yaml

/-- A node of a document. -/
inductive Node where
  | scalar (tag : Option String) (text : List Char) (style : Style)
  | list (items : List Node)
  | map (pairs : List (Node × Node))
  /-- The node of a number among those with an anchor. -/
  | alias (number : Nat)
  deriving Inhabited

namespace Node

/-- The node where nothing is written. -/
def nothing : Node := scalar none [] .plain

end Node

/-- A document: its outermost node, and its nodes with an anchor by their numbers. -/
structure Document where
  root : Node
  anchored : List (Nat × Node)

namespace Document

/-- The node itself, or the one that an alias stands for. -/
def resolve (d : Document) : Node → Node
  | .alias number => (d.anchored.lookup number).getD .nothing
  | other => other

end Document

/-- Tokens that are left, and what is known of the document so far. -/
structure Parse where
  tokens : List Token
  /-- What the handles of tags stand for. -/
  handles : List (String × String)
  /-- The names of anchors and the numbers of their nodes, the last first. -/
  names : List (String × Nat)
  anchored : List (Nat × Node)

/-- Reading of nodes, which may fail. -/
abbrev Reader := StateT Parse Option

namespace Reader

def peek : Reader (Option Token) := do return (← get).tokens.head?

/-- Passes over a token. -/
def advance : Reader Unit := modify fun p => { p with tokens := p.tokens.tail }

/-- Passes over a token that has to come next. -/
def expect (t : Token) : Reader Unit := do
  if (← peek) = some t then advance else failure

/-- Passes over a token if it comes next, and says whether it did. -/
def accept (t : Token) : Reader Bool := do
  if (← peek) = some t then
    advance
    return true
  return false

/-- One of some tokens comes next. -/
def comes (ts : List Token) : Reader Bool := do
  return (← peek).any ts.contains

/-- Reads an anchor, if there is one. -/
def anchor : Reader (Option String) := do
  match ← peek with
  | some (.anchor name) =>
    advance
    return some name
  | _ => return none

/-- Reads a tag, if there is one. Its handle has to be known. -/
def tag : Reader (Option String) := do
  match ← peek with
  | some (.tag t) =>
    advance
    if t.handle.isEmpty then return some t.suffix
    match (← get).handles.lookup t.handle with
    | some front => return some (front ++ t.suffix)
    | none => failure
  | _ => return none

/-- Reads an anchor and a tag in either order. -/
def properties : Reader (Option String × Option String) := do
  match ← anchor with
  | some name => return (some name, ← tag)
  | none =>
    let t ← tag
    return (← anchor, t)

/-- Gives the node that begins here a number, if it has an anchor. Numbers count the different names so far. -/
def enter (name : Option String) : Reader (Option Nat) := do
  match name with
  | none => return none
  | some name =>
    let number := ((← get).names.map (·.1)).eraseDups.length
    modify fun p => { p with names := (name, number) :: p.names }
    return some number

/-- Keeps a node under its number. -/
def leave (number : Option Nat) (node : Node) : Reader Node := do
  match number with
  | none => return node
  | some number =>
    modify fun p => { p with anchored := (number, node) :: p.anchored }
    return node

/-- The tag of a scalar, of which a single exclamation mark is none. -/
def scalarTag (t : Option String) : Option String := t.filter (· ≠ "!")

mutual

/-- Reads a node. In block style lists and maps may be told by columns, and a list that is the value of a key may
stand in the column of the key. The first argument of this and the following functions bounds how many of them are
at work at once. -/
def node : Nat → (block listHere : Bool) → Reader Node
  | 0, _, _ => failure
  | bound + 1, block, listHere => do
    match ← peek with
    | some (.alias name) =>
      advance
      match (← get).names.lookup name with
      | some number => return .alias number
      | none => failure
    | _ =>
      let (name, t) ← properties
      let number ← enter name
      leave number (← content bound block listHere (name.isSome || t.isSome) t)

/-- Reads what follows the anchor and the tag of a node. After one of them it may be missing. -/
def content : Nat → (block listHere optional : Bool) → (t : Option String) → Reader Node
  | 0, _, _, _, _ => failure
  | bound + 1, block, listHere, optional, t => do
    match ← peek with
    | some (.scalar text style) =>
      advance
      return .scalar (scalarTag t) text style
    | some .flowListStart =>
      advance
      return .list (← flowItems bound true)
    | some .flowMapStart =>
      advance
      return .map (← flowPairs bound true)
    | some .blockEntry => if listHere then return .list (← looseItems bound) else missing optional t
    | some .listStart =>
      if block then
        advance
        return .list (← blockItems bound)
      else missing optional t
    | some .mapStart =>
      if block then
        advance
        return .map (← blockPairs bound)
      else missing optional t
    | _ => missing optional t

/-- The node where nothing is written but perhaps a tag. -/
def missing (optional : Bool) (t : Option String) : Reader Node := do
  if optional then return .scalar t [] .plain else failure

/-- Reads a node unless one of some tokens comes next. -/
def nodeUnless : Nat → List Token → (block listHere : Bool) → Reader Node
  | 0, _, _, _ => failure
  | bound + 1, ts, block, listHere => do
    if ← comes ts then return .nothing else node bound block listHere

/-- Reads the entries of a list in block style and its end. -/
def blockItems : Nat → Reader (List Node)
  | 0 => failure
  | bound + 1 => do
    if ← accept .blockEnd then return []
    expect .blockEntry
    let item ← nodeUnless bound [.blockEntry, .blockEnd] true false
    return item :: (← blockItems bound)

/-- Reads the entries of a list in the column of its key. -/
def looseItems : Nat → Reader (List Node)
  | 0 => failure
  | bound + 1 => do
    if ← accept .blockEntry then
      let item ← nodeUnless bound [.blockEntry, .key, .value, .blockEnd] true false
      return item :: (← looseItems bound)
    else return []

/-- Reads the pairs of a map in block style and its end. -/
def blockPairs : Nat → Reader (List (Node × Node))
  | 0 => failure
  | bound + 1 => do
    if ← accept .blockEnd then return []
    expect .key
    let k ← nodeUnless bound [.key, .value, .blockEnd] true true
    let v ← if ← accept .value then nodeUnless bound [.key, .value, .blockEnd] true true else pure .nothing
    return (k, v) :: (← blockPairs bound)

/-- Reads the entries of a list in flow style and its end. Each but the first follows a comma. -/
def flowItems : Nat → (first : Bool) → Reader (List Node)
  | 0, _ => failure
  | bound + 1, first => do
    if ← accept .flowListEnd then return []
    unless first do expect .flowEntry
    if ← accept .flowListEnd then return []
    let item ← if ← accept .key then flowPair bound else node bound false false
    return item :: (← flowItems bound false)

/-- Reads a pair that is an entry of a list in flow style, after the mark of its key. A mark that follows in place of
the key is passed over. -/
def flowPair : Nat → Reader Node
  | 0 => failure
  | bound + 1 => do
    let k ← if ← comes [.value, .flowEntry, .flowListEnd] then
        advance
        pure .nothing
      else node bound false false
    let v ← if ← accept .value then nodeUnless bound [.flowEntry, .flowListEnd] false false else pure .nothing
    return .map [(k, v)]

/-- Reads the pairs of a map in flow style and its end. Each but the first follows a comma, and without the mark of a
key there is no value. -/
def flowPairs : Nat → (first : Bool) → Reader (List (Node × Node))
  | 0, _ => failure
  | bound + 1, first => do
    if ← accept .flowMapEnd then return []
    unless first do expect .flowEntry
    if ← accept .flowMapEnd then return []
    let pair ← if ← accept .key then do
        let k ← nodeUnless bound [.value, .flowEntry, .flowMapEnd] false false
        let v ← if ← accept .value then nodeUnless bound [.flowEntry, .flowMapEnd] false false else pure .nothing
        pure (k, v)
      else do pure (← node bound false false, .nothing)
    return pair :: (← flowPairs bound false)

end

end Reader

/-- What the handles of tags stand for unless a directive says otherwise. -/
def standardHandles : List (String × String) := [("!", "!"), ("!!", "tag:yaml.org,2002:")]

/-- What the directives before a document say of handles. A version may be given once and has to be one that is known,
and a handle may be given once. -/
def handles? (ds : List Directive) : Option (List (String × String)) :=
  let versions := ds.filterMap fun d => match d with
    | .version major minor => some (major, minor)
    | .tag _ _ => none
  let handles := ds.filterMap fun d => match d with
    | .version _ _ => none
    | .tag handle front => some (handle, front)
  if versions.length ≤ 1 && versions.all (fun v => v = (1, 1) || v = (1, 2))
      && decide (handles.map (·.1)).Nodup then some (handles ++ standardHandles)
  else none

/-- The directives at the front of tokens, and the tokens after them. -/
def splitDirectives : List Token → List Directive × List Token
  | .directive d :: rest =>
    let (ds, rest) := splitDirectives rest
    (d :: ds, rest)
  | rest => ([], rest)

/-- The document of which these are the tokens after its beginning. Nothing but ends of documents may follow it. -/
def documentOf? (handles : List (String × String)) (optional : Bool) (tokens : List Token) : Option Document := do
  let bound := 4 * tokens.length + 8
  let isEmpty := match tokens with
    | [] => true
    | .documentStart :: _ => true
    | .documentEnd :: _ => true
    | .directive _ :: _ => true
    | _ => false
  let (root, p) ← if optional && isEmpty then some (.nothing, ⟨tokens, handles, [], []⟩)
    else (Reader.node bound true false).run ⟨tokens, handles, [], []⟩
  if p.tokens.all (· = .documentEnd) then return ⟨root, p.anchored⟩ else none

/-- The only document of a text, which is empty if there is none. -/
def Document.parse (text : List Char) : Option Document := do
  match splitDirectives (← Token.scan text) with
  | ([], []) => return ⟨.nothing, []⟩
  | (ds, .documentStart :: rest) => documentOf? (← handles? ds) true rest
  | ([], tokens) => documentOf? standardHandles false tokens
  | _ => none

end CodelCurve.Yaml
