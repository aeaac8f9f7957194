import Workflow.Decimal.Layout

/-!
# Errors of a definition

What can be wrong with the annotations of a definition, found while reading them or while expanding.
-/

namespace Workflow

/-- Why a definition has no expansion. -/
inductive ExpansionError where
  | unhandled (name : String)
  | malformed (key reason : String)
  | negativePool (token : String) (pool : Int)
  | emptyToken
  /-- A token of an enclosing replication is used again. -/
  | tokenCollision (token : String)
  /-- A handler inside a replication does not take a branch index. -/
  | handlerArity (name : String)
  | unknownHandler (name : String)
  /-- Two names of a mapping became equal. -/
  | duplicateKey (name : String)
deriving DecidableEq

def ExpansionError.message : ExpansionError → String
  | .unhandled name => s!"unhandled annotation '{name}'"
  | .malformed key reason => s!"malformed {key} annotation: {reason}"
  | .negativePool token pool =>
    s!"replication '{token}' has negative pool size {integerText pool}"
  | .emptyToken => "replication template string must not be empty"
  | .tokenCollision token =>
    s!"replication token '{token}' is already bound by an enclosing replication"
  | .handlerArity name =>
    s!"handler '{name}' does not accept a branch index but appears inside a replication"
  | .unknownHandler name => s!"unknown handler '{name}'"
  | .duplicateKey name => s!"duplicate mapping key '{name}' after substitution"

end Workflow
