import AccessControl.Error
import AccessControl.Roles.LinkGraph
/-!
# Role managers

A manager answers whether a name inherits a role, over the links of one domain or of all domains
that match.  A query follows at most `maxLevel` links.  With a matching function every comparison of
names goes through it, so that one name can stand for several stored ones.
-/

namespace AccessControl

/-- A comparison of a name asked for with a stored one, which may be a pattern. -/
abbrev NameMatch := String → String → Bool

/-- The key of the links that were added without a domain. -/
def noDomain : String := "\x00default"

/-- The level of managers that are not told one. -/
def defaultMaxLevel : Nat := 10

/-- The links of all domains, and how names are compared. -/
structure RoleManager where
  /-- The links by domain, in the order in which the domains came up. -/
  domains : Table LinkGraph := []
  /-- The number of links a query follows. -/
  maxLevel : Nat := defaultMaxLevel
  nameMatch : Option NameMatch := none
  domainMatch : Option NameMatch := none
  /-- Whether a link that closes a cycle is refused. -/
  rejectCycles : Bool := false

namespace RoleManager

/-- The key of a domain. -/
def domainKey (domain : Option String) : String := domain.getD noDomain

/-- Whether a stored name is the one asked for. -/
def namesMatch (m : RoleManager) (name stored : String) : Bool :=
  name == stored || m.nameMatch.any fun f => f name stored

/-- The graphs a query in a domain sees. -/
def visible (m : RoleManager) (domain : Option String) : List LinkGraph :=
  match domain, m.domainMatch with
  | some d, some f =>
    (m.domains.filter fun e => e.1 != noDomain && (e.1 == d || f d e.1)).map (·.2)
  | _, _ => (m.domains.find (domainKey domain)).toList

/-! ## Changing links -/

/-- Drops all links, names and domains. -/
def clear (m : RoleManager) : RoleManager := { m with domains := [] }

/-- Adds a link in place.  Where cycles are refused the link is tried: if it closes one, its graph is
put back to the checkpoint, and a domain that came up with it goes. -/
def insertLink (m : RoleManager) (name role : String) (domain : Option String) :
    Except RoleError Unit × RoleManager :=
  let key := domainKey domain
  let graph := (m.domains.find key).getD {}
  let linked := graph.link name role
  let tried := m.domains.put key linked
  if !m.rejectCycles then (.ok (), { m with domains := tried })
  else if name = role then (.error (.cycle [name, role]), m)
  else
    match linked.path? role name with
    | none => (.ok (), { m with domains := tried })
    | some chain =>
      let restored := tried.put key (linked.restore (graph.checkpoint name role))
      let domains := if m.domains.contains key then restored else restored.remove key
      (.error (.cycle (name :: chain)), { m with domains })

/-- The manager with a link, or why the link is refused. -/
def addLink (m : RoleManager) (name role : String) (domain : Option String) :
    Except RoleError RoleManager :=
  match m.insertLink name role domain with
  | (.ok (), m) => .ok m
  | (.error e, _) => .error e

/-- Drops a link; one that is not there is no matter. -/
def deleteLink (m : RoleManager) (name role : String) (domain : Option String) : RoleManager :=
  { m with domains := m.domains.update (domainKey domain) fun g => g.unlink name role }

/-! ## Queries -/

/-- The names some stored node of a name inherits directly, graph by graph. -/
def rolesFrom (m : RoleManager) (graphs : List LinkGraph) (name : String) : List String :=
  graphs.flatMap fun g => (g.nodesMatching m.nameMatch name).flatMap g.rolesOf

/-- The names that inherit some stored node of a name directly, graph by graph. -/
def usersFrom (m : RoleManager) (graphs : List LinkGraph) (name : String) : List String :=
  graphs.flatMap fun g => (g.nodesMatching m.nameMatch name).flatMap g.usersOf

/-- Whether a role is reached from the names of one level in at most `level` steps. -/
def reaches (m : RoleManager) (graphs : List LinkGraph) (role : String) :
    Nat → List String → List String → Bool
  | 0, _, _ => false
  | level + 1, frontier, seen =>
    let roles := frontier.flatMap (m.rolesFrom graphs)
    if roles.any (m.namesMatch role) then true
    else
      let next := unseen seen roles
      if next.isEmpty then false else m.reaches graphs role level next (next ++ seen)

/-- Whether a name is a role or inherits it over at most `maxLevel` links. -/
def hasLink (m : RoleManager) (name role : String) (domain : Option String) : Bool :=
  m.namesMatch name role || m.reaches (m.visible domain) role m.maxLevel [name] []

/-- The direct roles of a name, each once. -/
def roles (m : RoleManager) (name : String) (domain : Option String) : List String :=
  distinct (m.rolesFrom (m.visible domain) name)

/-- The direct users of a role, each once. -/
def users (m : RoleManager) (name : String) (domain : Option String) : List String :=
  distinct (m.usersFrom (m.visible domain) name)

/-- The domains that came up, besides the links without one. -/
def domainNames (m : RoleManager) : List String := m.domains.keys.filter (· != noDomain)

end RoleManager

/-- Role managers by the name of their role definition. -/
abbrev RoleManagers := Table RoleManager

end AccessControl
