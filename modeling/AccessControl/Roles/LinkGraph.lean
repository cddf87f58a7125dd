import AccessControl.Distinct
import AccessControl.Table
/-!
# Role links

The links of one domain.  A link from a name to another says that the first inherits the second.
Every name a link was added for is a node; it keeps its roles and its users in the order in which
the links were added, and stays when its links go.

* `LinkGraph.link`, `LinkGraph.unlink`          add and drop one link
* `LinkGraph.path?`                             a shortest chain of links from one name to another
* `LinkGraph.checkpoint`, `LinkGraph.restore`   take back a link that was tried
-/

namespace AccessControl

/-- The links that start and that end at one name. -/
structure LinkNode where
  /-- The names this one inherits. -/
  roles : List String := []
  /-- The names that inherit this one. -/
  users : List String := []
  deriving Repr, DecidableEq

/-- The links of one domain. -/
structure LinkGraph where
  nodes : Table LinkNode := []
  deriving Repr, DecidableEq

namespace LinkGraph

/-- Makes a name a node. -/
def intern (g : LinkGraph) (name : String) : LinkGraph :=
  if g.nodes.contains name then g else ⟨g.nodes.put name {}⟩

/-- The names a node inherits directly. -/
def rolesOf (g : LinkGraph) (name : String) : List String :=
  ((g.nodes.find name).map (·.roles)).getD []

/-- The names that inherit a node directly. -/
def usersOf (g : LinkGraph) (name : String) : List String :=
  ((g.nodes.find name).map (·.users)).getD []

/-- The stored names a name stands for: itself, and those it matches. -/
def nodesMatching (g : LinkGraph) (matching : Option (String → String → Bool)) (name : String) :
    List String :=
  match matching with
  | none => if g.nodes.contains name then [name] else []
  | some f => g.nodes.keys.filter fun stored => stored == name || f name stored

/-- Adds a link between two nodes. -/
def connect (g : LinkGraph) (name role : String) : LinkGraph :=
  let nodes := g.nodes.update name fun n => { n with roles := addNew n.roles role }
  ⟨nodes.update role fun n => { n with users := addNew n.users name }⟩

/-- Adds a link, and nodes for its names. -/
def link (g : LinkGraph) (name role : String) : LinkGraph :=
  ((g.intern name).intern role).connect name role

/-- Drops a link; both names stay nodes. -/
def unlink (g : LinkGraph) (name role : String) : LinkGraph :=
  if g.nodes.contains name && g.nodes.contains role then
    let nodes := g.nodes.update name fun n => { n with roles := n.roles.erase role }
    ⟨nodes.update role fun n => { n with users := n.users.erase name }⟩
  else g

/-- Breadth-first search.  `queue` holds the chains to extend, each with its last name first, and
`seen` the names some chain reaches.  Every name enters the queue once, which bounds `fuel`. -/
def pathFrom (g : LinkGraph) (goal : String) :
    Nat → List (List String) → List String → Option (List String)
  | 0, _, _ => none
  | _ + 1, [], _ => none
  | fuel + 1, [] :: queue, seen => pathFrom g goal fuel queue seen
  | fuel + 1, (current :: before) :: queue, seen =>
    if current = goal then some (current :: before).reverse
    else
      let next := (g.rolesOf current).filter fun role => !seen.contains role
      pathFrom g goal fuel (queue ++ next.map fun role => role :: current :: before) (seen ++ next)

/-- A shortest chain of links from one name to another, both included. -/
def path? (g : LinkGraph) (start goal : String) : Option (List String) :=
  g.pathFrom goal (g.nodes.length + 2) [[start]] [start]

/-! ## Trying a link -/

/-- What a link that is tried can change: how many nodes there are, and the nodes of its names. -/
structure Checkpoint where
  size : Nat
  nodes : Table LinkNode
  deriving Repr, DecidableEq

/-- What to put back when a link between two names is refused. -/
def checkpoint (g : LinkGraph) (name role : String) : Checkpoint where
  size := g.nodes.length
  nodes := [name, role].filterMap fun n => (g.nodes.find n).map fun node => (n, node)

/-- Drops the nodes that came after a checkpoint, and puts its nodes back. -/
def restore (g : LinkGraph) (c : Checkpoint) : LinkGraph :=
  ⟨c.nodes.foldl (fun nodes e => nodes.update e.1 fun _ => e.2) (g.nodes.take c.size)⟩

end LinkGraph

end AccessControl
