import AccessControl.Authorizer.Basic
import AccessControl.Authorizer.Cache
/-!
# Cached authorizers

An authorizer with a cache of its decisions.  Errors are not remembered, and every change of the inner
authorizer, also one that fails, empties the cache.  Saving changes nothing that decisions depend on.
-/

namespace AccessControl

structure CachedAuthorizer (α : Type) where
  inner : α
  cache : DecisionCache := {}
  /-- The present in nanoseconds. -/
  now : Nat := 0

namespace CachedAuthorizer

variable {α β : Type}

/-- Lets time pass. -/
def wait (c : CachedAuthorizer α) (nanos : Nat) : CachedAuthorizer α :=
  { c with now := c.now + nanos }

def invalidate (c : CachedAuthorizer α) : CachedAuthorizer α :=
  { c with cache := c.cache.invalidate }

/-- Does something to the inner authorizer, and forgets all decisions. -/
def change (c : CachedAuthorizer α) (f : α → β × α) : β × CachedAuthorizer α :=
  let (answer, inner) := f c.inner
  (answer, { c with inner }.invalidate)

/-- Decides a request, by the cache if it can. -/
def decide [Authorizer α] (c : CachedAuthorizer α) (ctx : Context) (request : List Value) :
    Except Error Decision × CachedAuthorizer α :=
  let key := cacheKey ctx request
  match c.cache.lookup c.now key with
  | (some decision, cache) => (.ok decision, { c with cache })
  | (none, cache) =>
    match Authorizer.decide c.inner ctx request with
    | (.ok decision, inner) =>
      (.ok decision, { c with inner, cache := cache.insert c.now key decision })
    | (.error e, inner) => (.error e, { c with inner, cache })

open Authorizer in
instance [Authorizer α] : Authorizer (CachedAuthorizer α) where
  model c := model c.inner
  managers c := managers c.inner
  decide := decide
  addRows c sec name rows := c.change fun a => addRows a sec name rows
  removeRows c sec name rows := c.change fun a => removeRows a sec name rows
  removeFiltered c sec name index values := c.change fun a => removeFiltered a sec name index values
  updateRow c sec name old new := c.change fun a => updateRow a sec name old new
  load c := c.change load
  save c :=
    let (answer, inner) := save c.inner
    (answer, { c with inner })
  clear c := c.change clear

end CachedAuthorizer

end AccessControl
