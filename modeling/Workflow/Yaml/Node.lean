/-!
# YAML nodes

What a YAML text says before anyone asks what its scalars mean: scalars with their text, sequences,
and mappings with keys of any kind. Whether a scalar was written plainly matters, because only plain
scalars can be something else than text. Aliases are gone: each stands for a copy of its node.
-/

namespace Workflow

/-- A node of a YAML text. -/
inductive YamlNode where
  | scalar (plain : Bool) (text : String)
  | sequence (items : List YamlNode)
  /-- Keys and values in the order of the text. -/
  | mapping (entries : List (YamlNode × YamlNode))
deriving Inhabited

namespace YamlNode

/-- What stands where nothing is written. -/
def empty : YamlNode := .scalar true ""

mutual

/-- How deep sequences and mappings nest in a node. -/
def depth : YamlNode → Nat
  | .scalar _ _ => 0
  | .sequence items => depthItems items + 1
  | .mapping entries => depthEntries entries + 1

def depthItems : List YamlNode → Nat
  | [] => 0
  | n :: ns => max (depth n) (depthItems ns)

def depthEntries : List (YamlNode × YamlNode) → Nat
  | [] => 0
  | (k, v) :: es => max (max (depth k) (depth v)) (depthEntries es)

end

end YamlNode

end Workflow
