import Workflow.Template.Annotated
import Workflow.Template.Bindings
import Workflow.Template.Error

/-!
# Expansion

Expanding a definition makes the copies its replications ask for, replaces the tokens in every text
and name below them, and binds the handlers below them to the index of their copy. Copies made
directly inside a sequence become items of that sequence; copies made anywhere else become a
sequence of their own.

Nothing is shared between copies and a failure leaves nothing behind: the result is a tree or an
error.
-/

namespace Workflow

/-- What a node becomes: one node, or the copies of a replication. -/
inductive Expanded where
  | one (node : Concrete)
  | copies (nodes : List Concrete)

/-- The result where a single node is wanted. -/
def Expanded.node : Expanded → Concrete
  | .one node => node
  | .copies nodes => .sequence nodes

/-- The result as items of a sequence. -/
def Expanded.items : Expanded → List Concrete
  | .one node => [node]
  | .copies nodes => nodes

/-- A handler in its place: as it is outside all replications, bound to the copy inside. -/
def bindHandler (h : Handler) (b : Bindings) : Except ExpansionError Concrete :=
  if b.isEmpty then .ok (.handler h)
  else if h.acceptsBranch then .ok (.handler (.bound h b.branchIndex))
  else .error (.handlerArity h.name)

/-- What a replication needs in its place: a token that is not empty and not in use, and a size that
is not negative. -/
def checkReplication (token : String) (pool : Int64) (b : Bindings) : Except ExpansionError Unit :=
  if token = "" then .error .emptyToken
  else if pool.toInt < 0 then .error (.negativePool token pool.toInt)
  else if b.binds token then .error (.tokenCollision token)
  else .ok ()

namespace Annotated

mutual

/-- What a node becomes under the bindings of its place. -/
def expanded : Annotated → Bindings → Except ExpansionError Expanded
  | .mapping entries, b => (expandEntries entries b []).map fun es => .one (.mapping es)
  | .sequence items, b => (expandItems items b).map fun cs => .one (.sequence cs)
  | .text s, b => .ok (.one (.text (b.apply s)))
  | .handler h, b => (bindHandler h b).map .one
  | .replicate token pool node, b =>
    match checkReplication token pool b with
    | .error e => .error e
    | .ok () =>
      let copy (i : Nat) : Except ExpansionError Concrete :=
        (expanded node (b.extended token i)).map Expanded.node
      ((List.range pool.toInt.toNat).mapM copy).map .copies
  | .scalar s, _ => .ok (.one (.scalar s))

/-- The items of a sequence, with copies in the places of replications. -/
def expandItems : List Annotated → Bindings → Except ExpansionError (List Concrete)
  | [], _ => .ok []
  | node :: nodes, b =>
    match expanded node b with
    | .error e => .error e
    | .ok r => (expandItems nodes b).map (r.items ++ ·)

/-- The entries of a mapping under their new names, added to those in `done`. -/
def expandEntries :
    List (String × Annotated) → Bindings → Entries Concrete →
      Except ExpansionError (Entries Concrete)
  | [], _, done => .ok done
  | (name, node) :: entries, b, done =>
    match expanded node b with
    | .error e => .error e
    | .ok r =>
      let key := b.apply name
      if Entries.has key done then .error (.duplicateKey key)
      else expandEntries entries b (Entries.insert key r.node done)

end

/-- Expands a definition as if it stood inside the replications of `b`. -/
def expandIn (b : Bindings) (node : Annotated) : Except ExpansionError Concrete :=
  (node.expanded b).map Expanded.node

/-- Expands a definition. -/
def expand (node : Annotated) : Except ExpansionError Concrete := node.expandIn []

end Annotated

end Workflow
