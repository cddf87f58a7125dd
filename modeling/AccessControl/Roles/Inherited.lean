import AccessControl.Roles.Manager
/-!
# Inherited roles

All roles that a name has over any number of links, the nearest first.  The search goes level by
level over the direct roles; a name enters it once, and all but the first are roles of stored links,
so their number bounds the search.
-/

namespace AccessControl.RoleManager

/-- All names that are a role in some link. -/
def roleNames (m : RoleManager) : List String :=
  m.domains.values.flatMap fun g => g.nodes.values.flatMap (·.roles)

/-- The roles that come up from a queue of names, without `name` itself and those seen before. -/
def inheritedFrom (m : RoleManager) (name : String) (domain : Option String) :
    Nat → List String → List String → List String
  | 0, _, _ => []
  | _ + 1, [], _ => []
  | fuel + 1, current :: queue, seen =>
    let found := (unseen seen (m.roles current domain)).filter (· != name)
    found ++ m.inheritedFrom name domain fuel (queue ++ found) (seen ++ found)

/-- The roles of a name over one or more links, each once and without the name itself. -/
def inherited (m : RoleManager) (name : String) (domain : Option String) : List String :=
  m.inheritedFrom name domain (m.roleNames.length + 2) [name] []

end AccessControl.RoleManager
