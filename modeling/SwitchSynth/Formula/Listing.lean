import SwitchSynth.Formula.Graph

/-!
# Listing the distinct terms of a graph

The terms below a node, each once, parts before wholes, in the order in which a walk from left to right is
done with them.
-/

namespace SwitchSynth.Formula

namespace Graph

/-- The number of a node in an array, which is added if it is not there. -/
def intern (nodes : Graph) (n : Node) : Graph × Nat :=
  match nodes.findIdx? (· == n) with
  | some i => (nodes, i)
  | none => (nodes.push n, nodes.size)

/-- Refer to other numbers. -/
def renumber (f : Nat → Nat) : Node → Node
  | .app op arguments => .app op (arguments.map f)
  | n => n

/-- The distinct terms of a graph, with the number that each node has among them. -/
def distinct (g : Graph) : Graph × Array Nat :=
  g.foldl
    (fun (nodes, numbers) n =>
      let (nodes, i) := nodes.intern (renumber (fun a => numbers.getD a 0) n)
      (nodes, numbers.push i))
    (#[], #[])

def argumentsAt (g : Graph) (i : Nat) : List Nat :=
  match g[i]? with
  | some (.app _ arguments) => arguments
  | _ => []

/-- Walk down from a node; `done` holds the nodes that the walk is done with. The bound is one more than the
number of the node, because arguments have smaller numbers. -/
def walk (g : Graph) : Nat → List Nat → Nat → List Nat
  | 0, done, _ => done
  | fuel + 1, done, i =>
    if i ∈ done then done
    else ((g.argumentsAt i).foldl (fun done a => walk g fuel done a) done) ++ [i]

/-- The distinct terms below a node, parts before wholes. -/
def listing (g : Graph) (root : Nat) : List Node :=
  let (nodes, numbers) := g.distinct
  let top := numbers.getD root 0
  let order := nodes.walk (nodes.size + 1) [] top
  order.filterMap fun i => nodes[i]?.map (renumber order.idxOf)

end Graph

end SwitchSynth.Formula
