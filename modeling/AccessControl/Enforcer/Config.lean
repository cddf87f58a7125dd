import AccessControl.Json.Settings
import AccessControl.Number.Digits
import AccessControl.Roles.Manager
/-!
# Settings

The settings of an enforcer and of a decision cache, and their JSON form.
-/

namespace AccessControl

/-- The settings of an enforcer. -/
structure EnforcerConfig where
  /-- Without enforcement every request is allowed. -/
  enabled : Bool := true
  /-- Whether changes of rows go to the store at once. -/
  autoSave : Bool := true
  /-- Whether role links follow the role rows. -/
  autoLinks : Bool := true
  logEnabled : Bool := false
  /-- The number of links a role query follows. -/
  maxLevel : Nat := defaultMaxLevel
  /-- Whether role links may not form cycles. -/
  rejectCycles : Bool := false
  deriving Repr, DecidableEq

namespace EnforcerConfig

/-- The names of the settings, in order. -/
def names : List String :=
  ["enabled", "auto_save", "auto_build_role_links", "log_enabled", "max_hierarchy_level",
    "cycle_detection"]

/-- The settings in a JSON value, if all that are given are of their type. -/
def ofJson? (j : Json) : Option EnforcerConfig := do
  let setting ← j.settings? names
  let enabled ← settingOr true Json.bool? (setting "enabled")
  let autoSave ← settingOr true Json.bool? (setting "auto_save")
  let autoLinks ← settingOr true Json.bool? (setting "auto_build_role_links")
  let logEnabled ← settingOr false Json.bool? (setting "log_enabled")
  let maxLevel ← settingOr defaultMaxLevel (Json.nat? 64) (setting "max_hierarchy_level")
  let rejectCycles ← settingOr false Json.bool? (setting "cycle_detection")
  some { enabled, autoSave, autoLinks, logEnabled, maxLevel, rejectCycles }

/-- All settings. -/
def toJson (c : EnforcerConfig) : Json :=
  .obj [("enabled", .bool c.enabled), ("auto_save", .bool c.autoSave),
    ("auto_build_role_links", .bool c.autoLinks), ("log_enabled", .bool c.logEnabled),
    ("max_hierarchy_level", .int c.maxLevel), ("cycle_detection", .bool c.rejectCycles)]

end EnforcerConfig

/-- A length of time; the nanoseconds are less than a second. -/
structure Duration where
  seconds : Nat
  nanos : Nat
  deriving Repr, DecidableEq

namespace Duration

/-- The nanoseconds of a second. -/
def nanosPerSecond : Nat := 1000000000

/-- The whole length in nanoseconds. -/
def total (d : Duration) : Nat := d.seconds * nanosPerSecond + d.nanos

/-- A number of seconds and of nanoseconds, which may be more than a second. -/
def ofParts? (seconds nanos : Nat) : Option Duration :=
  let whole := seconds + nanos / nanosPerSecond
  if whole < Number.twoTo 64 then some ⟨whole, nanos % nanosPerSecond⟩ else none

/-- A length of time in JSON: the two numbers, by name and nothing else, or in an array. -/
def ofJson? : Json → Option Duration
  | .obj members => do
    if members.all fun e => e.1 == "secs" || e.1 == "nanos" then
      let j := Json.obj members
      let seconds ← (j.get? "secs").bind (Json.nat? 64)
      let nanos ← (j.get? "nanos").bind (Json.nat? 32)
      ofParts? seconds nanos
    else none
  | .arr [seconds, nanos] => do
    ofParts? (← seconds.nat? 64) (← nanos.nat? 32)
  | _ => none

def toJson (d : Duration) : Json := .obj [("secs", .int d.seconds), ("nanos", .int d.nanos)]

end Duration

/-- The settings of a decision cache. -/
structure CacheConfig where
  /-- The number of decisions at which room is made. -/
  capacity : Nat := 10000
  /-- The age beyond which a decision is not used. -/
  ttl : Duration := ⟨60, 0⟩
  deriving Repr, DecidableEq

namespace CacheConfig

/-- The settings in a JSON value, if all that are given are of their type. -/
def ofJson? (j : Json) : Option CacheConfig := do
  let setting ← j.settings? ["capacity", "ttl"]
  let capacity ← settingOr 10000 (Json.nat? 64) (setting "capacity")
  let ttl ← settingOr ⟨60, 0⟩ Duration.ofJson? (setting "ttl")
  some { capacity, ttl }

def toJson (c : CacheConfig) : Json := .obj [("capacity", .int c.capacity), ("ttl", c.ttl.toJson)]

end CacheConfig

end AccessControl
