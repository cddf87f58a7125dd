import AccessControl.Roles.Manager
/-!
# Role links by id

The layout behind a `LinkGraph`.  The nodes of a domain stand in a row, the place of a node is its id, and a
node keeps the ids of its roles and of its users.  Ids are looked up without a promise that they are valid: the
name of a missing node is empty, and a missing node is not changed, has no links and ends a search.

* `Arena.view`                                  the same graph by names
* `Arena.path`                                  a shortest chain of links, by a map to the node before
* `Arenas.insertLink`, `Arenas.deleteLink`      what a manager does to the arenas of its domains
* `Arenas.roles`, `Arenas.users`                direct roles and users, without matching
-/

namespace AccessControl

/-- The links that start and that end at one node. -/
structure ArenaNode where
  roles : List Nat := []
  users : List Nat := []
  deriving Repr, DecidableEq

/-- The links of one domain, by ids. -/
structure Arena where
  nodes : Table ArenaNode := []
  deriving Repr, DecidableEq

namespace Arena

def id? (a : Arena) (name : String) : Option Nat := a.nodes.keys.idxOf? name

/-- The name of a node, empty for a missing one. -/
def name (a : Arena) (id : Nat) : String := (a.nodes[id]?.map (·.1)).getD ""

def node? (a : Arena) (id : Nat) : Option ArenaNode := a.nodes[id]?.map (·.2)

/-- Changes a node that is not missing. -/
def modify (a : Arena) (id : Nat) (f : ArenaNode → ArenaNode) : Arena :=
  ⟨List.modify a.nodes id fun e => (e.1, f e.2)⟩

/-- The id of a name, which becomes a node at the end if it is none. -/
def intern (a : Arena) (name : String) : Nat × Arena :=
  match a.id? name with
  | some id => (id, a)
  | none => (a.nodes.length, ⟨a.nodes ++ [(name, {})]⟩)

/-- Adds a link between two nodes. -/
def connect (a : Arena) (source target : Nat) : Arena :=
  (a.modify source fun n => { n with roles := addNew n.roles target }).modify target fun n =>
    { n with users := addNew n.users source }

/-- Adds a link, and nodes for its names; the ids of the names come with it. -/
def link (a : Arena) (name role : String) : Nat × Nat × Arena :=
  let (source, a) := a.intern name
  let (target, a) := a.intern role
  (source, target, a.connect source target)

/-- Drops a link; both names stay nodes. -/
def unlink (a : Arena) (name role : String) : Arena :=
  match a.id? name, a.id? role with
  | some source, some target =>
    (a.modify source fun n => { n with roles := n.roles.erase target }).modify target fun n =>
      { n with users := n.users.erase source }
  | _, _ => a

/-! ## A chain of links -/

/-- The way from `start` to a node by a map to the node before, in front of the way `rest` behind it.  No
node comes twice, so the size of the map bounds `fuel`. -/
def wayBack (parents : List (Nat × Nat)) (start : Nat) : Nat → Nat → List Nat → Option (List Nat)
  | 0, _, _ => none
  | fuel + 1, current, rest =>
    if current = start then some (current :: rest)
    else
      match parents.lookup current with
      | some before => wayBack parents start fuel before (current :: rest)
      | none => none

/-- Breadth-first search.  `parents` maps every node that was seen to the one before it. -/
def pathFrom (a : Arena) (start goal : Nat) : Nat → List Nat → List (Nat × Nat) → Option (List Nat)
  | 0, _, _ => none
  | _ + 1, [], _ => none
  | fuel + 1, current :: queue, parents =>
    if current = goal then wayBack parents start parents.length current []
    else
      match a.node? current with
      | none => none
      | some node =>
        let next := node.roles.filter fun id => !(parents.map (·.1)).contains id
        a.pathFrom start goal fuel (queue ++ next) (parents ++ next.map fun id => (id, current))

/-- A shortest chain of links from one node to another, both included. -/
def path (a : Arena) (start goal : Nat) : Option (List Nat) :=
  a.pathFrom start goal (a.nodes.length + 2) [start] [(start, start)]

/-! ## Trying a link -/

/-- What a link that is tried can change: how many nodes there are, and the nodes of its names. -/
structure Checkpoint where
  size : Nat
  rows : List (Nat × ArenaNode)
  deriving Repr, DecidableEq

/-- What to put back when a link between two names is refused. -/
def checkpoint (a : Arena) (name role : String) : Checkpoint where
  size := a.nodes.length
  rows := [name, role].filterMap fun n => (a.id? n).bind fun id => (a.node? id).map fun node => (id, node)

/-- Drops the nodes that came after a checkpoint, and puts its nodes back. -/
def restore (a : Arena) (c : Checkpoint) : Arena :=
  c.rows.foldl (fun a row => a.modify row.1 fun _ => row.2) ⟨a.nodes.take c.size⟩

/-! ## By names -/

def viewNode (a : Arena) (n : ArenaNode) : LinkNode := ⟨n.roles.map a.name, n.users.map a.name⟩

/-- The same links by names. -/
def view (a : Arena) : LinkGraph := ⟨a.nodes.map fun e => (e.1, a.viewNode e.2)⟩

end Arena

/-- The links of all domains, by the keys of the domains. -/
abbrev Arenas := Table Arena

namespace Arenas

open RoleManager (domainKey)

/-- Adds a link in place.  Where cycles are refused the link is tried: if it closes one, its arena is put
back to the checkpoint, and a domain that came up with it goes. -/
def insertLink (arenas : Arenas) (rejectCycles : Bool) (name role : String) (domain : Option String) :
    Except RoleError Unit × Arenas :=
  let key := domainKey domain
  let arena := (arenas.find key).getD {}
  let (source, target, linked) := arena.link name role
  let tried := arenas.put key linked
  if !rejectCycles then (.ok (), tried)
  else if name = role then (.error (.cycle [name, role]), arenas)
  else
    match linked.path target source with
    | none => (.ok (), tried)
    | some cycle =>
      let restored := tried.put key (linked.restore (arena.checkpoint name role))
      let arenas := if arenas.contains key then restored else restored.remove key
      (.error (.cycle (name :: cycle.map linked.name)), arenas)

/-- Drops a link; one that is not there is no matter. -/
def deleteLink (arenas : Arenas) (name role : String) (domain : Option String) : Arenas :=
  arenas.update (domainKey domain) fun a => a.unlink name role

/-- The names that some links of a name lead to in a domain, each once. -/
def neighbours (arenas : Arenas) (links : ArenaNode → List Nat) (name : String) (domain : Option String) :
    List String :=
  distinct ((arenas.find (domainKey domain)).toList.flatMap fun a =>
    (a.id? name).toList.flatMap fun id => (a.node? id).toList.flatMap fun n => (links n).map a.name)

/-- The direct roles of a name. -/
def roles (arenas : Arenas) (name : String) (domain : Option String) : List String :=
  arenas.neighbours ArenaNode.roles name domain

/-- The direct users of a role. -/
def users (arenas : Arenas) (name : String) (domain : Option String) : List String :=
  arenas.neighbours ArenaNode.users name domain

/-- The same links by names. -/
def view (arenas : Arenas) : Table LinkGraph := arenas.map fun e => (e.1, e.2.view)

end Arenas

end AccessControl
