import Workflow.Yaml.Block
import Workflow.Yaml.Node
import Workflow.Yaml.Scan

/-!
# Reading YAML text

A text holds one document: a node, perhaps behind a line of dashes and before a line of dots. Block
collections are told by the columns they begin at, flow collections by brackets. The keys of a
mapping stand on one line with the colon behind them; in a block mapping, any node may be a key
behind a question mark, and its value stands behind a colon at the column of that mark.

The readers take a cursor at the first character of a node and leave it behind the node. `floor` is
the least column at which a node inside the current block collection may stand. Tags and directives
are not read, nor is a question mark before a key between brackets.
-/

namespace Workflow

/-- The nodes under their anchors, the last one first. There is no node while it is being read. -/
abbrev YamlAnchors := List (String × Option YamlNode)

/-- What the reader goes through. -/
structure YamlState where
  cursor : YamlCursor
  anchors : YamlAnchors := []

/-- The greatest number of characters between a key and its colon. -/
def maxKeyLength : Nat := 1024

/-- How deep collections may nest. -/
def maxYamlDepth : Nat := 128

namespace YamlState

/-- The state at another place. -/
def moveTo (s : YamlState) (p : YamlCursor) : YamlState := { s with cursor := p }

/-- Behind the next character. -/
def advance (s : YamlState) : YamlState :=
  match s.cursor.rest with
  | [] => s
  | _ :: cs => s.moveTo (s.cursor.step cs)

def skip (s : YamlState) (inFlow : Bool) : YamlState := s.moveTo (s.cursor.skip inFlow)

/-- In a place where no block collection may begin. -/
def stale (s : YamlState) : YamlState := s.moveTo { s.cursor with fresh := false }

/-- The next character. -/
def next? (s : YamlState) : Option Char := s.cursor.rest.head?

/-- Whether the colon at the cursor can belong to a key that begins at `start`. -/
def keyFrom (s : YamlState) (start : YamlCursor) : Bool :=
  s.cursor.line = start.line && s.cursor.offset ≤ start.offset + maxKeyLength

/-- Files a node under an anchor. -/
def anchor (s : YamlState) (name : String) (node : Option YamlNode) : YamlState :=
  { s with anchors := (name, node) :: s.anchors }

end YamlState

/-- Whether a character may stand in the name of an anchor. -/
def isAnchorChar (c : Char) : Bool := c.isAlphanum || c = '-' || c = '_'

/-- The name of an anchor or an alias behind its first character. -/
def scanAnchor (s : YamlState) : Option (String × YamlState) :=
  let s := s.advance
  let name := s.cursor.rest.takeWhile isAnchorChar
  let rest := s.cursor.rest.dropWhile isAnchorChar
  let endsWell := atBlank rest || rest.head?.any fun c => c ∈ "?:,]\x7d%@`".toList
  if name = [] || !endsWell then none
  else
    let p := s.cursor
    some (String.ofList name, s.moveTo { p with
      rest, column := p.column + name.length, offset := p.offset + name.length, fresh := false })

/-- The node that an alias stands for. -/
def scanAlias (depth : Nat) (s : YamlState) : Option (YamlNode × YamlState) := do
  let (name, s) ← scanAnchor s
  let (_, node) ← s.anchors.find? fun e => e.1 = name
  let node ← node
  if node.depth ≤ depth then some (node, s) else none

/-- A scalar. -/
def scanScalar (inFlow : Bool) (floor : Nat) (s : YamlState) : Option (YamlNode × YamlState) :=
  match s.next? with
  | some '\'' =>
    (scanQuoted false s.advance.cursor).map fun (text, p) => (.scalar false text, s.moveTo p)
  | some '"' =>
    (scanQuoted true s.advance.cursor).map fun (text, p) => (.scalar false text, s.moveTo p)
  | _ =>
    if startsPlain inFlow s.cursor.rest then
      (scanPlain inFlow floor s.cursor).map fun (text, p) => (.scalar true text, s.moveTo p)
    else none

/-! ## Flow collections -/

mutual

/-- A node inside a flow collection. `fuel` bounds the steps and `depth` the collections that may be
opened. -/
def flowNode (fuel depth floor : Nat) (s : YamlState) : Option (YamlNode × YamlState) :=
  match fuel with
  | 0 => none
  | fuel + 1 =>
    if s.cursor.atDocumentMarker then none
    else
      match s.next? with
      | some '[' =>
        match depth with
        | 0 => none
        | depth + 1 => flowItems fuel depth floor [] (s.advance.skip true)
      | some '{' =>
        match depth with
        | 0 => none
        | depth + 1 => flowEntries fuel depth floor [] (s.advance.skip true)
      | some '*' => scanAlias depth s
      | some '&' =>
        match scanAnchor s with
        | none => none
        | some (name, s) =>
          let s := s.skip true
          match s.next? with
          | some '&' => none
          | some '*' => none
          | some c =>
            if c ∈ [',', ']', '}', ':'] then some (.empty, s.anchor name (some .empty))
            else
              (flowNode fuel depth floor (s.anchor name none)).map fun (node, s) =>
                (node, s.anchor name (some node))
          | none => none
      | _ => scanScalar true floor s

/-- The value behind a colon inside a flow collection that ends with `close`. -/
def flowValue (fuel depth floor : Nat) (close : Char) (s : YamlState) :
    Option (YamlNode × YamlState) :=
  match fuel with
  | 0 => none
  | fuel + 1 =>
    let s := s.advance.skip true
    match s.next? with
    | some c => if c = ',' || c = close then some (.empty, s) else flowNode fuel depth floor s
    | none => none

/-- The items of a flow sequence up to its end. An item with a colon is a mapping of one entry. -/
def flowItems (fuel depth floor : Nat) (done : List YamlNode) (s : YamlState) :
    Option (YamlNode × YamlState) :=
  match fuel with
  | 0 => none
  | fuel + 1 =>
    if s.next? = some ']' then some (.sequence done.reverse, s.advance.stale)
    else
      let start := s.cursor
      match flowNode fuel depth floor s with
      | none => none
      | some (node, s) =>
        let s := s.skip true
        let item :=
          if s.next? = some ':' then
            if s.keyFrom start && 0 < depth then
              (flowValue fuel (depth - 1) floor ']' s).map fun (v, s) =>
                (YamlNode.mapping [(node, v)], s.skip true)
            else none
          else some (node, s)
        match item with
        | none => none
        | some (item, s) =>
          match s.next? with
          | some ',' => flowItems fuel depth floor (item :: done) (s.advance.skip true)
          | some ']' => some (.sequence (item :: done).reverse, s.advance.stale)
          | _ => none

/-- The entries of a flow mapping up to its end. A key without a colon has an empty value. -/
def flowEntries (fuel depth floor : Nat) (done : List (YamlNode × YamlNode)) (s : YamlState) :
    Option (YamlNode × YamlState) :=
  match fuel with
  | 0 => none
  | fuel + 1 =>
    if s.next? = some '}' then some (.mapping done.reverse, s.advance.stale)
    else
      let start := s.cursor
      match flowNode fuel depth floor s with
      | none => none
      | some (key, s) =>
        let s := s.skip true
        let value :=
          if s.next? = some ':' then
            if s.keyFrom start then
              (flowValue fuel depth floor '}' s).map fun (v, s) => (v, s.skip true)
            else none
          else some (.empty, s)
        match value with
        | none => none
        | some (v, s) =>
          match s.next? with
          | some ',' => flowEntries fuel depth floor ((key, v) :: done) (s.advance.skip true)
          | some '}' => some (.mapping ((key, v) :: done).reverse, s.advance.stale)
          | _ => none

end

/-! ## Block collections -/

/-- A scalar in a block of lines. -/
def blockScalar (folded : Bool) (floor : Nat) (s : YamlState) : Option (YamlNode × YamlState) :=
  (scanBlock folded floor s.cursor).map fun (text, p) => (.scalar false text, s.moveTo p)

/-- A node that is no block collection: a scalar, an alias or a flow collection. -/
def leafNode (fuel depth floor : Nat) (s : YamlState) : Option (YamlNode × YamlState) :=
  match s.next? with
  | some '|' => blockScalar false floor s
  | some '>' => blockScalar true floor s
  | some '[' => flowNode fuel depth floor s
  | some '{' => flowNode fuel depth floor s
  | some '*' => scanAlias depth s
  | _ => scanScalar false floor s

/-- What follows a leaf on its line. -/
inductive AfterLeaf where
  /-- A colon: the leaf is a key. -/
  | colon (s : YamlState)
  | other
  /-- A colon that cannot belong to the leaf. -/
  | stray

/-- Looks behind a leaf that begins at `start`. -/
def afterLeaf (start : YamlCursor) (s : YamlState) : AfterLeaf :=
  if s.cursor.fresh then .other
  else
    let t := s.skip false
    if t.cursor.line = s.cursor.line && t.cursor.atIndicator ':' then
      if t.keyFrom start then .colon t else .stray
    else .other

mutual

/-- A node at or behind column `floor`. With `dash`, a sequence may also stand one column before. -/
def blockNode (fuel depth floor : Nat) (s : YamlState) : Option (YamlNode × YamlState) :=
  match fuel with
  | 0 => none
  | fuel + 1 =>
    let start := s.cursor
    if start.atIndicator '-' then
      match depth with
      | 0 => none
      | depth + 1 =>
        if start.fresh then blockItems fuel depth start.column false [] s else none
    else if start.atIndicator '?' || start.atIndicator ':' then
      match depth with
      | 0 => none
      | depth + 1 => if start.fresh then blockEntry fuel depth start.column [] s else none
    else if s.next? = some '&' then
      match scanAnchor s with
      | none => none
      | some (name, s) => anchoredNode fuel depth floor start name s
    else
      match leafNode fuel depth floor s with
      | none => none
      | some (node, s) => leafOrMapping fuel depth start node s

/-- A leaf, or the block mapping whose first key it is. The leaf begins at `start`. -/
def leafOrMapping (fuel depth : Nat) (start : YamlCursor) (node : YamlNode) (s : YamlState) :
    Option (YamlNode × YamlState) :=
  match fuel with
  | 0 => none
  | fuel + 1 =>
    match afterLeaf start s with
    | .other => some (node, s)
    | .stray => none
    | .colon t =>
      match depth with
      | 0 => none
      | depth + 1 =>
        if start.fresh then blockEntries fuel depth start.column [] node false t else none

/-- A node behind an anchor, which begins at `start`. On the line of the anchor there is a leaf,
perhaps a key; on later lines any node, or nothing. -/
def anchoredNode (fuel depth floor : Nat) (start : YamlCursor) (name : String) (s : YamlState) :
    Option (YamlNode × YamlState) :=
  match fuel with
  | 0 => none
  | fuel + 1 =>
    let line := s.cursor.line
    let t := s.skip false
    if t.cursor.atEnd || (t.cursor.line ≠ line && t.cursor.column < floor) then
      some (.empty, t.anchor name (some .empty))
    else if t.cursor.line = line then
      match leafNode fuel depth floor (t.anchor name none) with
      | none => none
      | some (node, s) => leafOrMapping fuel depth start node (s.anchor name (some node))
    else
      (blockNode fuel depth floor (t.anchor name none)).map fun (node, s) =>
        (node, s.anchor name (some node))

/-- What stands behind the question mark or the colon of an entry at column `column`. On the line of
the mark a block collection may begin only if the mark is the first thing of its line, `leading`. -/
def entryPart (fuel depth column : Nat) (leading : Bool) (s : YamlState) :
    Option (YamlNode × YamlState) :=
  match fuel with
  | 0 => none
  | fuel + 1 =>
    let s := s.advance
    let s := (s.moveTo { s.cursor with fresh := leading }).skip false
    if s.cursor.atEnd then some (.empty, s)
    else if s.cursor.fresh && s.cursor.column ≤ column then
      if s.cursor.column = column && s.cursor.atIndicator '-' then
        match depth with
        | 0 => none
        | depth + 1 => blockItems fuel depth column true [] s
      else some (.empty, s)
    else blockNode fuel depth (column + 1) s

/-- The entries of a block mapping at column `column`, from the colon of the key `key` on. -/
def blockEntries (fuel depth column : Nat) (done : List (YamlNode × YamlNode)) (key : YamlNode)
    (leading : Bool) (s : YamlState) : Option (YamlNode × YamlState) :=
  match fuel with
  | 0 => none
  | fuel + 1 =>
    match entryPart fuel depth column leading s with
    | none => none
    | some (v, s) => moreEntries fuel depth column ((key, v) :: done) s

/-- The entries of a block mapping at column `column`, from behind an entry on. -/
def moreEntries (fuel depth column : Nat) (done : List (YamlNode × YamlNode)) (s : YamlState) :
    Option (YamlNode × YamlState) :=
  match fuel with
  | 0 => none
  | fuel + 1 =>
    let s := s.skip false
    if s.cursor.atEnd || (s.cursor.fresh && s.cursor.column < column) then
      some (.mapping done.reverse, s)
    else if !s.cursor.fresh || s.cursor.column ≠ column || s.cursor.atIndicator '-' then none
    else blockEntry fuel depth column done s

/-- The entries of a block mapping at column `column`, from the first character of one on. -/
def blockEntry (fuel depth column : Nat) (done : List (YamlNode × YamlNode)) (s : YamlState) :
    Option (YamlNode × YamlState) :=
  match fuel with
  | 0 => none
  | fuel + 1 =>
    let start := s.cursor
    if start.atIndicator '?' then
      match entryPart fuel depth column true s with
      | none => none
      | some (key, s) =>
        let t := s.skip false
        if t.cursor.fresh && t.cursor.column = column && t.cursor.atIndicator ':' then
          blockEntries fuel depth column done key true t
        else moreEntries fuel depth column ((key, .empty) :: done) s
    else if start.atIndicator ':' then blockEntries fuel depth column done .empty true s
    else
      match blockKey fuel depth column s with
      | none => none
      | some (key, s) =>
        match afterLeaf start s with
        | .colon t => blockEntries fuel depth column done key false t
        | _ => none

/-- A key of a block mapping, perhaps with an anchor on its line. -/
def blockKey (fuel depth column : Nat) (s : YamlState) : Option (YamlNode × YamlState) :=
  match fuel with
  | 0 => none
  | fuel + 1 =>
    if s.next? = some '&' then
      match scanAnchor s with
      | none => none
      | some (name, s) =>
        (leafNode fuel depth (column + 1) ((s.skip false).anchor name none)).map fun (node, s) =>
          (node, s.anchor name (some node))
    else leafNode fuel depth (column + 1) s

/-- The items of a block sequence at column `column`, from a dash on. A sequence that is the value
of a key may stand at the column of the key; it ends where the next key begins. -/
def blockItems (fuel depth column : Nat) (underKey : Bool) (done : List YamlNode) (s : YamlState) :
    Option (YamlNode × YamlState) :=
  match fuel with
  | 0 => none
  | fuel + 1 =>
    let s := s.advance
    let s := (s.moveTo { s.cursor with fresh := true }).skip false
    let item :=
      if s.cursor.atEnd || s.cursor.column ≤ column then some (.empty, s)
      else blockNode fuel depth (column + 1) s
    match item with
    | none => none
    | some (item, s) =>
      let done := item :: done
      let s := s.skip false
      if s.cursor.atEnd then some (.sequence done.reverse, s)
      else if !s.cursor.fresh || column < s.cursor.column then none
      else if s.cursor.column < column then some (.sequence done.reverse, s)
      else if s.cursor.atIndicator '-' then blockItems fuel depth column underKey done s
      else if underKey then some (.sequence done.reverse, s)
      else none

end

/-! ## Documents -/

/-- What may stand behind the node of a document. -/
def endsDocument (s : YamlState) : Bool :=
  let s := s.skip false
  if s.cursor.rest.isEmpty then true
  else if s.cursor.atMarker '.' then
    let t := s.advance.advance.advance.skip false
    t.cursor.rest.isEmpty
  else false

/-- The node of a document. -/
def documentNode? (s : YamlState) (fuel : Nat) : Option YamlNode :=
  let s := s.skip false
  let root :=
    if s.cursor.rest.isEmpty then some (.empty, s)
    else if s.cursor.atMarker '-' then
      let t := s.advance.advance.advance.stale.skip false
      if t.cursor.atEnd then some (.empty, t) else blockNode fuel maxYamlDepth 0 t
    else if s.cursor.atMarker '.' then none
    else blockNode fuel maxYamlDepth 0 s
  root.bind fun (node, s) => if endsDocument s then some node else none

/-- The node written by a text. Every few steps read a character, which bounds their number. -/
def YamlNode.ofText? (text : String) : Option YamlNode :=
  let cs := text.toList
  let cs := match cs with
    | '\uFEFF' :: cs => cs
    | cs => cs
  if cs.all isYamlChar then
    documentNode? { cursor := .start (plainBreaks cs) } (8 * cs.length + 16)
  else none

end Workflow
