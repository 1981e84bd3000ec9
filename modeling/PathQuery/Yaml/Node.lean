import PathQuery.Yaml.Token

namespace PathQuery.Yaml

/-! # YAML nodes

The tokens of a text make a tree of scalars, sequences and mappings.  Where a node
is left out an empty plain scalar stands for it.
-/

inductive Node where
  | scalar (plain : Bool) (text : String)
  | sequence (items : List Node)
  | mapping (entries : List (Node × Node))

namespace Node

/-- What stands for a node that is left out. -/
def empty : Node := scalar true ""

/-- The node may be left out before one of these tokens. -/
def leftOutBefore (ends : List Token) : List Token → Bool
  | [] => true
  | token :: _ => ends.contains token

mutual

/-- Read a node.  `inBlock` says that block collections may stand here, and
    `unindented` that the entries of a sequence may, as they may after a key of the
    same column. -/
def read (inBlock unindented : Bool) : Nat → List Token → Option (Node × List Token)
  | 0, _ => none
  | fuel + 1, tokens =>
    match tokens with
    | .scalar plain text :: rest => some (scalar plain text, rest)
    | .openBracket :: rest =>
      (readFlowItems true fuel rest).map fun (items, rest) => (sequence items, rest)
    | .openBrace :: rest =>
      (readFlowEntries true fuel rest).map fun (entries, rest) => (mapping entries, rest)
    | .sequenceStart :: rest =>
      if inBlock then
        (readItems fuel rest).map fun (items, rest) => (sequence items, rest)
      else none
    | .mappingStart :: rest =>
      if inBlock then
        (readEntries fuel rest).map fun (entries, rest) => (mapping entries, rest)
      else none
    | .entry :: rest =>
      if unindented then
        (readUnindented fuel (.entry :: rest)).map fun (items, rest) => (sequence items, rest)
      else none
    | _ => none

/-- Read a node that is left out before one of some tokens. -/
def readUnless (ends : List Token) (inBlock unindented : Bool) :
    Nat → List Token → Option (Node × List Token)
  | 0, _ => none
  | fuel + 1, tokens =>
    if leftOutBefore ends tokens then some (empty, tokens)
    else read inBlock unindented fuel tokens

def readItems : Nat → List Token → Option (List Node × List Token)
  | 0, _ => none
  | fuel + 1, tokens =>
    match tokens with
    | .entry :: rest => do
      let (item, rest) ← readUnless [.entry, .blockEnd] true false fuel rest
      let (items, rest) ← readItems fuel rest
      return (item :: items, rest)
    | .blockEnd :: rest => some ([], rest)
    | _ => none

/-- Read the items of a sequence in the column of the key before it. -/
def readUnindented : Nat → List Token → Option (List Node × List Token)
  | 0, _ => none
  | fuel + 1, tokens =>
    match tokens with
    | .entry :: rest => do
      let (item, rest) ← readUnless [.entry, .key, .value, .blockEnd] true false fuel rest
      let (items, rest) ← readUnindented fuel rest
      return (item :: items, rest)
    | _ => some ([], tokens)

def readEntries : Nat → List Token → Option (List (Node × Node) × List Token)
  | 0, _ => none
  | fuel + 1, tokens =>
    match tokens with
    | .key :: rest => do
      let (key, rest) ← readUnless [.key, .value, .blockEnd] true true fuel rest
      let (value, rest) ← match rest with
        | .value :: rest => readUnless [.key, .value, .blockEnd] true true fuel rest
        | _ => some (empty, rest)
      let (entries, rest) ← readEntries fuel rest
      return ((key, value) :: entries, rest)
    | .blockEnd :: rest => some ([], rest)
    | _ => none

/-- Read the items of a flow sequence up to its bracket.  An item that is a key with
    a value is a mapping of one entry.  Where its key is left out, the token that tells
    so belongs to the key. -/
def readFlowItems (first : Bool) : Nat → List Token → Option (List Node × List Token)
  | 0, _ => none
  | fuel + 1, tokens => do
    if let .closeBracket :: rest := tokens then
      return ([], rest)
    let tokens ← if first then some tokens else match tokens with
      | .comma :: rest => some rest
      | _ => none
    match tokens with
    | .closeBracket :: rest => return ([], rest)
    | .key :: rest =>
      let (key, rest) ←
        if leftOutBefore [.value, .comma, .closeBracket] rest then
          some (empty, rest.tail)
        else read false false fuel rest
      let (value, rest) ← match rest with
        | .value :: rest => readUnless [.comma, .closeBracket] false false fuel rest
        | _ => some (empty, rest)
      let (items, rest) ← readFlowItems false fuel rest
      return (mapping [(key, value)] :: items, rest)
    | _ =>
      let (item, rest) ← read false false fuel tokens
      let (items, rest) ← readFlowItems false fuel rest
      return (item :: items, rest)

/-- Read the entries of a flow mapping up to its brace.  A node without a colon is a
    key without a value. -/
def readFlowEntries (first : Bool) :
    Nat → List Token → Option (List (Node × Node) × List Token)
  | 0, _ => none
  | fuel + 1, tokens => do
    if let .closeBrace :: rest := tokens then
      return ([], rest)
    let tokens ← if first then some tokens else match tokens with
      | .comma :: rest => some rest
      | _ => none
    match tokens with
    | .closeBrace :: rest => return ([], rest)
    | .key :: rest =>
      let (key, rest) ← readUnless [.value, .comma, .closeBrace] false false fuel rest
      let (value, rest) ← match rest with
        | .value :: rest => readUnless [.comma, .closeBrace] false false fuel rest
        | _ => some (empty, rest)
      let (entries, rest) ← readFlowEntries false fuel rest
      return ((key, value) :: entries, rest)
    | _ =>
      let (key, rest) ← read false false fuel tokens
      let (entries, rest) ← readFlowEntries false fuel rest
      return ((key, empty) :: entries, rest)

end

/-- The directives at the front of some tokens. -/
def takeDirectives : List Token → List Directive × List Token
  | .directive directive :: rest =>
    let (directives, rest) := takeDirectives rest
    (directive :: directives, rest)
  | tokens => ([], tokens)

/-- Read the node of a document, with its marks if it has any.  After directives it
    needs the mark of its start, and only after that mark it may be left out. -/
def ofTokens? (tokens : List Token) : Option Node := do
  let (directives, tokens) := takeDirectives tokens
  if !Directive.areAllowed directives then none
  let fuel := 4 * tokens.length + 4
  let (node, rest) ← match tokens with
    | .documentStart :: rest => readUnless [.documentStart, .documentEnd] true false fuel rest
    | _ => if directives.isEmpty then read true false fuel tokens else none
  if rest.all (· == .documentEnd) then return node
  none

/-- The node that a text holds; none if it is not the text of one document. -/
def ofText? (text : String) : Option Node := (Token.ofText? text).bind ofTokens?

end Node

end PathQuery.Yaml
