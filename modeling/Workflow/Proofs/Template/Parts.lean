import Mathlib.Data.List.Nodup
import Mathlib.Data.List.Perm.Basic
import Workflow.Template.Annotated
import Workflow.Template.Bindings

/-!
# The parts of a document

Every part of a concrete tree stands at a position: the names and indices on the way to it. A part
of a definition is told by a route, which besides names and indices has the replications on the way.
A route and an index for each of its replications give a position, and the same indices give the
bindings of that place.

Inside a sequence a replication takes as many items as it has copies, and its copies start where
the items before it end. Anywhere else it stands for a sequence of its own.
-/

namespace Workflow

/-- A part of a document by itself, without what is inside. -/
inductive Part where
  | mapping
  | sequence
  | text (s : String)
  | handler (h : Handler)
  | scalar (s : Scalar)
deriving DecidableEq

/-- The part in a place with these bindings. -/
def Part.under (b : Bindings) : Part → Part
  | .text s => .text (b.apply s)
  | .handler h => .handler (if b.isEmpty then h else .bound h b.branchIndex)
  | part => part

/-! ## Positions -/

/-- A step into a concrete tree. -/
inductive Concrete.Edge where
  | entry (name : String)
  | item (index : Nat)
deriving DecidableEq

/-- Parts inside another one. -/
def below {ε : Type} (edge : ε) (parts : List (List ε × Part)) : List (List ε × Part) :=
  parts.map fun p ↦ (edge :: p.1, p.2)

namespace Concrete

mutual

/-- The parts of a tree with their positions. -/
def parts : Concrete → List (List Edge × Part)
  | .mapping entries => ([], .mapping) :: partsOfEntries entries
  | .sequence items => ([], .sequence) :: partsOfItems 0 items
  | .text s => [([], .text s)]
  | .handler h => [([], .handler h)]
  | .scalar s => [([], .scalar s)]

def partsOfItems (start : Nat) : List Concrete → List (List Edge × Part)
  | [] => []
  | c :: cs => below (.item start) (parts c) ++ partsOfItems (start + 1) cs

def partsOfEntries : List (String × Concrete) → List (List Edge × Part)
  | [] => []
  | (name, c) :: entries => below (.entry name) (parts c) ++ partsOfEntries entries

end

end Concrete

/-! ## Routes -/

/-- A step into a definition. -/
inductive Annotated.Edge where
  | entry (name : String)
  | item (index : Nat)
  /-- Into `pool` copies, which are the items of a sequence from `start` on. -/
  | copy (token : String) (pool start : Nat)
deriving DecidableEq

/-- The way to a part of a definition. -/
abbrev Annotated.Route := List Annotated.Edge

namespace Annotated

/-- How many items a node takes inside a sequence. -/
def width : Annotated → Nat
  | .replicate _ pool _ => pool.toInt.toNat
  | _ => 1

mutual

/-- The parts of a definition with their routes. -/
def parts : Annotated → List (Route × Part)
  | .mapping entries => ([], .mapping) :: partsOfEntries entries
  | .sequence items => ([], .sequence) :: partsOfItems 0 items
  | .text s => [([], .text s)]
  | .handler h => [([], .handler h)]
  | .replicate token pool node =>
    ([], .sequence) :: below (.copy token pool.toInt.toNat 0) (parts node)
  | .scalar s => [([], .scalar s)]

def partsOfItems (start : Nat) : List Annotated → List (Route × Part)
  | [] => []
  | node :: nodes =>
    (match node with
      | .replicate token pool inner => below (.copy token pool.toInt.toNat start) (parts inner)
      | other => below (.item start) (parts other)) ++ partsOfItems (start + width node) nodes

def partsOfEntries : List (String × Annotated) → List (Route × Part)
  | [] => []
  | (name, node) :: entries => below (.entry name) (parts node) ++ partsOfEntries entries

end

/-- A part as an item of a sequence. -/
def partsAt (start : Nat) : Annotated → List (Route × Part)
  | .replicate token pool node => below (.copy token pool.toInt.toNat start) (parts node)
  | node => below (.item start) (parts node)

theorem partsOfItems_cons (start : Nat) (node : Annotated) (nodes : List Annotated) :
    partsOfItems start (node :: nodes)
      = partsAt start node ++ partsOfItems (start + width node) nodes := by
  cases node <;> rfl

namespace Route

/-- The tokens of the replications on a route, the outermost first. -/
def tokens : Route → List String
  | [] => []
  | .copy token _ _ :: route => token :: tokens route
  | .entry _ :: route => tokens route
  | .item _ :: route => tokens route

/-- The sizes of the replications on a route, the outermost first. -/
def pools : Route → List Nat
  | [] => []
  | .copy _ pool _ :: route => pool :: pools route
  | .entry _ :: route => pools route
  | .item _ :: route => pools route

/-- The bindings at the end of a route from a place with the bindings `b`. -/
def bindings (b : Bindings) (route : Route) (indices : List Nat) : Bindings :=
  b ++ (tokens route).zip indices

/-- The position that a route leads to when its replications have the given indices. -/
def position : Bindings → Route → List Nat → List Concrete.Edge
  | _, [], _ => []
  | b, .entry name :: route, indices => .entry (b.apply name) :: position b route indices
  | b, .item index :: route, indices => .item index :: position b route indices
  | b, .copy token _ start :: route, i :: indices =>
    .item (start + i) :: position (b.extended token i) route indices
  | _, .copy _ _ _ :: _, [] => []

end Route

end Annotated

/-- All choices of an index below each of the sizes. -/
def indexTuples : List Nat → List (List Nat)
  | [] => [[]]
  | n :: sizes => (List.range n).flatMap fun i ↦ (indexTuples sizes).map (i :: ·)

theorem mem_indexTuples_iff {sizes indices : List Nat} :
    indices ∈ indexTuples sizes ↔ List.Forall₂ (· < ·) indices sizes := by
  induction sizes generalizing indices with
  | nil => simp [indexTuples]
  | cons n sizes ih =>
    simp only [indexTuples, List.mem_flatMap, List.mem_range, List.mem_map, ih]
    constructor
    · rintro ⟨i, hi, rest, hrest, rfl⟩
      exact .cons hi hrest
    · rintro (_ | ⟨hi, hrest⟩)
      exact ⟨_, hi, _, hrest, rfl⟩

theorem nodup_indexTuples (sizes : List Nat) : (indexTuples sizes).Nodup := by
  induction sizes with
  | nil => simp [indexTuples]
  | cons n sizes ih =>
    rw [indexTuples, List.nodup_flatMap]
    refine ⟨fun i _ ↦ ih.map (List.cons_injective), ?_⟩
    refine List.nodup_range.imp fun hne indices hleft hright ↦ hne ?_
    obtain ⟨left, -, rfl⟩ := List.mem_map.mp hleft
    obtain ⟨right, -, heq⟩ := List.mem_map.mp hright
    exact (List.cons.inj heq).1.symm

end Workflow
