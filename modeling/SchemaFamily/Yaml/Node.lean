import SchemaFamily.Yaml.Token

/-
  Nodes of a YAML document. A node is a scalar, a list, a record of pairs of nodes, or an alias,
  which stands for the node that last began under its number. What is missing where a node is
  expected is an empty plain scalar. A text holds one document; one without any node is an empty
  plain scalar too. Of tags only those of scalars are kept, but all have to have a known handle.
-/

namespace SchemaFamily.Yaml

/-- A node of a document. -/
inductive Node where
  | scalar (text : String) (style : Style) (tag : Option Tag)
  | list (items : List Node)
  | record (entries : List (Node × Node))
  | alias (number : Nat)
deriving Repr, Inhabited

/-- The node that is missing. -/
def Node.empty : Node := .scalar "" .plain none

/-- A document: its node, and the nodes that anchors numbered, the last begun first. -/
structure Document where
  root : Node
  anchored : List (Nat × Node)
deriving Repr

/-- The node that a node stands for. -/
def Document.resolve? (d : Document) : Node → Option Node
  | .alias number => d.anchored.lookup number
  | node => some node

/-! ## Reading tokens -/

/-- The tokens that are left, what handles are short for, the numbers of the names of anchors, and
    what they stand for. -/
structure Progress where
  tokens : List Token
  handles : Handles := knownHandles
  names : List (String × Nat) := []
  anchored : List (Nat × Node) := []

/-- Reading tokens, or giving up. -/
abbrev Parsing := StateT Progress Option

/-- The next token. -/
def peek : Parsing (Option Token) := do return (← get).tokens.head?

/-- Passes over the next token. -/
def skipToken : Parsing Unit := modify fun p => { p with tokens := p.tokens.tail }

/-- Passes over the next token if it is `token`; tells whether it was. -/
def accept (token : Token) : Parsing Bool := do
  if (← peek) == some token then
    skipToken
    return true
  else return false

/-- Passes over `token`, which has to be next. -/
def expect (token : Token) : Parsing Unit := do
  if ← accept token then return
  else failure

/-- The next token is one of some tokens. -/
def isNext (tokens : List Token) : Parsing Bool := do
  return (← peek).any (tokens.contains ·)

/-- The number of an anchor. Names are numbered by how many different ones came before. -/
def number (name : String) : Parsing Nat := do
  let p ← get
  let n := p.names.length
  set { p with names := (name, n) :: p.names.filter (·.1 != name) }
  return n

/-- Lets a number stand for a node, which began when `earlier` nodes were anchored; those anchored
    since stand inside it and count as newer. -/
def anchor (number : Option Nat) (earlier : Nat) (node : Node) : Parsing Node := do
  match number with
  | none => return node
  | some n =>
    modify fun p =>
      let inner := p.anchored.length - earlier
      { p with anchored := p.anchored.take inner ++ (n, node) :: p.anchored.drop inner }
    return node

/-- What stands in front of a node. -/
structure Properties where
  number : Option Nat := none
  tag : Option Tag := none

/-- Something stands in front of the node. -/
def Properties.any (p : Properties) : Bool := p.number.isSome || p.tag.isSome

/-- The number of the anchor that is next, if one is. -/
def nextAnchor : Parsing (Option Nat) := do
  match ← peek with
  | some (.anchor name) =>
    skipToken
    return some (← number name)
  | _ => return none

/-- The tag that is next, if one is; its handle has to be known. -/
def nextTag : Parsing (Option Tag) := do
  match ← peek with
  | some (.tag written) =>
    skipToken
    match written.resolve? (← get).handles with
    | some tag => return some tag
    | none => failure
  | _ => return none

/-- The anchor and the tag in front of a node, in either order. -/
def properties : Parsing Properties := do
  match ← nextAnchor with
  | some n => return ⟨some n, ← nextTag⟩
  | none =>
    match ← nextTag with
    | some tag => return ⟨← nextAnchor, some tag⟩
    | none => return {}

mutual

/-- The next node, after at most `steps` steps; block collections count only where `block` says
    so, and lists that are not indented only where `aligned` says so. -/
def node : (steps : Nat) → (block aligned : Bool) → Parsing Node
  | 0, _, _ => failure
  | steps + 1, block, aligned => do
    match ← peek with
    | some (.alias name) =>
      skipToken
      match (← get).names.lookup name with
      | some n => return .alias n
      | none => failure
    | _ =>
      let told ← properties
      let n := told.number
      let earlier := (← get).anchored.length
      match ← peek, block, aligned with
      | some .item, _, true => anchor n earlier (.list (← alignedItems steps))
      | some (.scalar text style), _, _ =>
        skipToken
        anchor n earlier (.scalar text style (told.tag.filter (· != .nonspecific)))
      | some .openFlowList, _, _ =>
        skipToken
        anchor n earlier (.list (← flowItems steps true))
      | some .openFlowRecord, _, _ =>
        skipToken
        anchor n earlier (.record (← flowEntries steps true))
      | some .openBlockList, true, _ =>
        skipToken
        anchor n earlier (.list (← blockItems steps))
      | some .openBlockRecord, true, _ =>
        skipToken
        anchor n earlier (.record (← blockEntries steps))
      | _, _, _ => if told.any then anchor n earlier (.scalar "" .plain told.tag) else failure

/-- The items of an indented list, up to its end. -/
def blockItems : (steps : Nat) → Parsing (List Node)
  | 0 => failure
  | steps + 1 => do
    if ← accept .item then
      let item ← if ← isNext [.item, .closeBlock] then pure .empty else node steps true false
      return item :: (← blockItems steps)
    else
      expect .closeBlock
      return []

/-- The items of a list that is not indented. -/
def alignedItems : (steps : Nat) → Parsing (List Node)
  | 0 => failure
  | steps + 1 => do
    if ← accept .item then
      let item ← if ← isNext [.item, .key, .value, .closeBlock] then pure .empty
        else node steps true false
      return item :: (← alignedItems steps)
    else return []

/-- The value of a field of a block record. -/
def blockValue : (steps : Nat) → Parsing Node
  | 0 => failure
  | steps + 1 => do
    if ← accept .value then
      if ← isNext [.key, .value, .closeBlock] then return .empty
      else node steps true true
    else return .empty

/-- The fields of a block record, up to its end. -/
def blockEntries : (steps : Nat) → Parsing (List (Node × Node))
  | 0 => failure
  | steps + 1 => do
    if ← accept .key then
      let name ← if ← isNext [.key, .value, .closeBlock] then pure .empty else node steps true true
      let value ← blockValue steps
      return (name, value) :: (← blockEntries steps)
    else
      expect .closeBlock
      return []

/-- The items of a flow list, up to its end. A pair is no item here. -/
def flowItems : (steps : Nat) → (first : Bool) → Parsing (List Node)
  | 0, _ => failure
  | steps + 1, first => do
    if ← accept .closeFlowList then return []
    else
      if !first then expect .comma
      if ← accept .closeFlowList then return []
      else
        let item ← node steps false false
        return item :: (← flowItems steps false)

/-- The value of a field of a flow record. -/
def flowValue : (steps : Nat) → Parsing Node
  | 0 => failure
  | steps + 1 => do
    if ← accept .value then
      if ← isNext [.comma, .closeFlowRecord] then return .empty
      else node steps false false
    else return .empty

/-- The fields of a flow record, up to its end. -/
def flowEntries : (steps : Nat) → (first : Bool) → Parsing (List (Node × Node))
  | 0, _ => failure
  | steps + 1, first => do
    if ← accept .closeFlowRecord then return []
    else
      if !first then expect .comma
      if ← accept .key then
        let name ← if ← isNext [.value, .comma, .closeFlowRecord] then pure .empty
          else node steps false false
        let value ← flowValue steps
        return (name, value) :: (← flowEntries steps false)
      else if ← accept .closeFlowRecord then return []
      else
        let name ← node steps false false
        return (name, .empty) :: (← flowEntries steps false)

end

/-- What the lines before a document say of handles, and the tokens after them. The version is
    told once at most, and so is what each handle is short for. -/
def prologue? (versioned : Bool) (handles : Handles) : List Token → Option (Handles × List Token)
  | .version :: later => if versioned then none else prologue? true handles later
  | .handle name start :: later =>
    if (handles.lookup name).isSome then none
    else prologue? versioned ((name, start) :: handles) later
  | tokens => some (handles, tokens)

/-- Reads the lines before a document; tells whether there are any. -/
def readPrologue : Parsing Bool := do
  let p ← get
  match prologue? false [] p.tokens with
  | none => failure
  | some (handles, tokens) =>
    set { p with tokens, handles := handles ++ knownHandles }
    return tokens.length < p.tokens.length

/-- No node of a document can begin with the token. -/
def Token.endsDocument : Token → Bool
  | .documentEnd | .documentStart | .version | .handle _ _ => true
  | _ => false

/-- The node of a document, up to its end, and nothing after it. -/
def wholeDocument (steps : Nat) : Parsing Node := do
  let told ← readPrologue
  let begun ← accept .documentStart
  if told && !begun then failure
  else if (← peek).isNone && !begun then return .empty
  else
    let root ← if begun && (← peek).all (·.endsDocument) then pure .empty
      else node steps true false
    modify fun p => { p with tokens := p.tokens.dropWhile (· == .documentEnd) }
    if (← peek).isNone then return root
    else failure

/-- The document of a text. -/
def Document.read? (s : String) : Option Document := do
  let tokens ← tokens? s
  let (root, p) ← (wholeDocument (4 * tokens.length + 4)).run { tokens }
  return ⟨root, p.anchored⟩

end SchemaFamily.Yaml
