import AccessControl.Authorizer.Basic
import AccessControl.Authorizer.Cache
import AccessControl.Authorizer.Cached
import AccessControl.Authorizer.Policies
import AccessControl.Authorizer.Roles
import AccessControl.Csv.Reader
import AccessControl.Csv.Writer
import AccessControl.Distinct
import AccessControl.Effect.Basic
import AccessControl.Effect.Stream
import AccessControl.Enforcer.Basic
import AccessControl.Enforcer.Changes
import AccessControl.Enforcer.Config
import AccessControl.Enforcer.Decision
import AccessControl.Enforcer.Description
import AccessControl.Enforcer.Enforcement
import AccessControl.Enforcer.Links
import AccessControl.Enforcer.Loading
import AccessControl.Error
import AccessControl.Expr.Basic
import AccessControl.Expr.Cursor
import AccessControl.Expr.Lexing
import AccessControl.Expr.Parsing
import AccessControl.Expr.Portable
import AccessControl.Expr.Reference
import AccessControl.Expr.Scanning
import AccessControl.Expr.Token
import AccessControl.Json.Basic
import AccessControl.Json.Reader
import AccessControl.Json.Settings
import AccessControl.Json.Writer
import AccessControl.Matcher.Evaluation
import AccessControl.Matcher.Function
import AccessControl.Matcher.Program
import AccessControl.Matcher.Scope
import AccessControl.Matching.Glob
import AccessControl.Matching.KeyOffsets
import AccessControl.Matching.KeyPattern
import AccessControl.Matching.Network
import AccessControl.Matching.Predicates
import AccessControl.Model.Basic
import AccessControl.Model.Definition
import AccessControl.Model.Links
import AccessControl.Model.Order
import AccessControl.Model.Text
import AccessControl.Number.Binary64
import AccessControl.Number.Digits
import AccessControl.Number.Layout
import AccessControl.Number.Shortest
import AccessControl.Regex.ByteRange
import AccessControl.Regex.ClassReading
import AccessControl.Regex.Compile
import AccessControl.Regex.Escape
import AccessControl.Regex.Matching
import AccessControl.Regex.Meaning
import AccessControl.Regex.Node
import AccessControl.Regex.Pattern
import AccessControl.Regex.Reading
import AccessControl.Regex.Size
import AccessControl.Roles.Arena
import AccessControl.Roles.Inherited
import AccessControl.Roles.LinkGraph
import AccessControl.Roles.Manager
import AccessControl.Store.Basic
import AccessControl.Store.File
import AccessControl.Store.Line
import AccessControl.Store.Memory
import AccessControl.Store.Sum
import AccessControl.Table
import AccessControl.Text.Blank
import AccessControl.Text.Offset
import AccessControl.Text.Quoted
import AccessControl.Text.Slice
import AccessControl.Text.Split
import AccessControl.Text.Utf8
import AccessControl.Unicode.Age
import AccessControl.Unicode.Boundary
import AccessControl.Unicode.CaseFolding
import AccessControl.Unicode.Category
import AccessControl.Unicode.CharSet
import AccessControl.Unicode.Property
import AccessControl.Unicode.PropertyName
import AccessControl.Unicode.RangeText
import AccessControl.Unicode.Script
import AccessControl.Value.Arithmetic
import AccessControl.Value.Basic
import AccessControl.Value.Kind
import AccessControl.Value.OfJson
import AccessControl.Value.Text
import AccessControl.Proofs.Roles.Links
import AccessControl.Proofs.Roles.Paths
import AccessControl.Proofs.Roles.Managers
import AccessControl.Proofs.Model.Index
import AccessControl.Proofs.Model.Rows
import AccessControl.Proofs.Model.Runs
import AccessControl.Proofs.Roles.Inheritance
import AccessControl.Proofs.Roles.Rows
import AccessControl.Proofs.Roles.Follows
import AccessControl.Proofs.Model.Changes
import AccessControl.Proofs.Enforcer.Runs
import AccessControl.Proofs.Number.Digits
import AccessControl.Proofs.Expr.References
import AccessControl.Proofs.Matcher.Cache
import AccessControl.Proofs.Effect.Law
import AccessControl.Proofs.Enforcer.FullScan
import AccessControl.Proofs.Enforcer.Valid
import AccessControl.Proofs.Enforcer.Steps
import AccessControl.Proofs.Enforcer.Enforcement
import AccessControl.Proofs.Enforcer.Tracking
import AccessControl.Proofs.Enforcer.Rebuilds
import AccessControl.Proofs.Enforcer.Agreement
import AccessControl.Proofs.Enforcer.RoleBased
import AccessControl.Proofs.Roles.Refusals
import AccessControl.Proofs.Enforcer.Consistent
import AccessControl.Proofs.Enforcer.ConsistentRuns
import AccessControl.Proofs.Enforcer.FailedLoads
import AccessControl.Proofs.Store.Answers
import AccessControl.Proofs.Enforcer.FailedChanges
import AccessControl.Proofs.Enforcer.FilteredSaves
import AccessControl.Proofs.Store.Memory
import AccessControl.Proofs.Model.Lines
import AccessControl.Proofs.Model.LogicalLines
import AccessControl.Proofs.Model.Accounted
import AccessControl.Proofs.Enforcer.InMemory
import AccessControl.Proofs.Enforcer.Durable
import AccessControl.Proofs.Enforcer.Mirrored
import AccessControl.Proofs.Authorizer.Keys
import AccessControl.Proofs.Enforcer.Evaluations
import AccessControl.Proofs.Authorizer.CachedRuns
import AccessControl.Proofs.Authorizer.Deletions
import AccessControl.Proofs.Enforcer.Compiled
import AccessControl.Proofs.Expr.Grammar
import AccessControl.Proofs.Expr.Parsing
import AccessControl.Proofs.Expr.Spelling
import AccessControl.Proofs.Expr.Lexing
import AccessControl.Proofs.Expr.Literals
import AccessControl.Proofs.Expr.Dotted
import AccessControl.Proofs.Matcher.Spelled
import AccessControl.Proofs.Matcher.Chains
import AccessControl.Proofs.Model.Priority
import AccessControl.Proofs.Enforcer.Edits
import AccessControl.Proofs.Enforcer.PriorityOrder
import AccessControl.Proofs.Enforcer.PartialLoads
import AccessControl.Proofs.Model.Depth
import AccessControl.Proofs.Enforcer.SubjectOrder
import AccessControl.Proofs.Enforcer.Resorting
import AccessControl.Proofs.Csv.RoundTrip
import AccessControl.Proofs.Store.File
import AccessControl.Proofs.Model.Reloaded
import AccessControl.Proofs.Model.Written
import AccessControl.Proofs.Model.PartialRows
import AccessControl.Proofs.Enforcer.SavedLoads
import AccessControl.Proofs.Enforcer.OtherModels
import AccessControl.Proofs.Roles.Domains
import AccessControl.Proofs.Enforcer.RefusedManagers
import AccessControl.Proofs.Enforcer.SharedLinks
import AccessControl.Proofs.Enforcer.OtherSections
import AccessControl.Proofs.Enforcer.Replacements
import AccessControl.Proofs.Enforcer.FilteredRemovals
import AccessControl.Proofs.Enforcer.Revocation
import AccessControl.Proofs.Roles.Inherited
import AccessControl.Proofs.Authorizer.Permissions
import AccessControl.Proofs.Matcher.Derivations
import AccessControl.Proofs.Matcher.Nesting
import AccessControl.Proofs.Expr.Calls
import AccessControl.Proofs.Matcher.KnownCalls
import AccessControl.Proofs.Roles.Nearest
import AccessControl.Proofs.Roles.Arena
import AccessControl.Proofs.Roles.ArenaPaths
import AccessControl.Proofs.Roles.Arenas
import AccessControl.Proofs.Roles.LinkLists
import AccessControl.Proofs.Effect.Decided
import AccessControl.Proofs.Authorizer.CacheBounds
import AccessControl.Proofs.Regex.Matches
import AccessControl.Proofs.Regex.Rows
import AccessControl.Proofs.Regex.Reach
import AccessControl.Proofs.Regex.Reading
import AccessControl.Proofs.Regex.Size
import AccessControl.Proofs.Matching.Covered
import AccessControl.Proofs.Matching.Assignments
import AccessControl.Proofs.Matching.LiteralKeys
import AccessControl.Proofs.Matching.Paths
import AccessControl.Proofs.Roles.ShortestChains
import AccessControl.Proofs.Text.Boundaries
import AccessControl.Proofs.Expr.Scanning
import AccessControl.Proofs.Expr.Cursor
import AccessControl.Proofs.Expr.Places
import AccessControl.Proofs.Matching.StarPrefix
