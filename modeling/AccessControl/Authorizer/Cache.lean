import AccessControl.Enforcer.Config
import AccessControl.Enforcer.Decision
import AccessControl.Value.Text
/-!
# Decision caches

A cache remembers decisions by the text of what was asked.  Decisions older than its time to live are
not used.  Before a decision goes into a full cache, room is made: the expired decisions go, and if
that is not enough the oldest tenth.

* `cacheKey`                 the text of a context and a request
* `DecisionCache.lookup`     the decision for a key, counting hits, misses and expiries
* `DecisionCache.insert`     remember a decision
-/

namespace AccessControl

/-- The text of a context and a request.  Every part ends in a NUL character, and the kind of a value
stands before its text.  Decisions are looked up by the text itself, not by a digest of it, so no two texts
are taken for one. -/
def cacheKey (ctx : Context) (request : List Value) : String :=
  let names := [ctx.request, ctx.policy, ctx.effect, ctx.matcher].map fun name => name ++ "\x00"
  let values := request.map fun v => v.kind.name ++ v.text ++ "\x00"
  String.join (names ++ values)

/-- A remembered decision; times are in nanoseconds. -/
structure CacheEntry where
  key : String
  decision : Decision
  time : Nat
  deriving Repr, DecidableEq

/-- The remembered decisions, the oldest one first, and what happened so far. -/
structure DecisionCache where
  config : CacheConfig := {}
  entries : List CacheEntry := []
  hits : Nat := 0
  misses : Nat := 0
  expirations : Nat := 0
  deriving Repr, DecidableEq

namespace DecisionCache

/-- Whether a decision is too old at a time. -/
def isExpired (c : DecisionCache) (now : Nat) (entry : CacheEntry) : Bool :=
  decide (c.config.ttl.total < now - entry.time)

/-- The decision for a key.  One that is too old is dropped, which does not count as a miss. -/
def lookup (c : DecisionCache) (now : Nat) (key : String) : Option Decision × DecisionCache :=
  match c.entries.find? fun entry => entry.key == key with
  | some entry =>
    if c.isExpired now entry then
      (none, { c with
        entries := c.entries.filter fun entry => entry.key != key
        expirations := c.expirations + 1 })
    else (some entry.decision, { c with hits := c.hits + 1 })
  | none => (none, { c with misses := c.misses + 1 })

/-- Makes room: drops the expired decisions, and the oldest tenth if the cache is still full. -/
def evict (c : DecisionCache) (now : Nat) : DecisionCache :=
  let fresh := c.entries.filter fun entry => !c.isExpired now entry
  if fresh.length < c.config.capacity then { c with entries := fresh }
  else { c with entries := fresh.drop (max (c.config.capacity / 10) 1) }

/-- Remembers a decision. -/
def insert (c : DecisionCache) (now : Nat) (key : String) (decision : Decision) : DecisionCache :=
  let c := if c.entries.length < c.config.capacity then c else c.evict now
  { c with entries := (c.entries.filter fun entry => entry.key != key) ++ [⟨key, decision, now⟩] }

/-- Forgets all decisions; the counts stay. -/
def invalidate (c : DecisionCache) : DecisionCache := { c with entries := [] }

/-- The part of the lookups that did not expire which were hits. -/
def hitRate (c : DecisionCache) : Float :=
  let total := c.hits + c.misses
  if total = 0 then 0.0 else Float.ofNat c.hits / Float.ofNat total

end DecisionCache

end AccessControl
