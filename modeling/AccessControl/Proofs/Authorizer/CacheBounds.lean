import AccessControl.Proofs.Authorizer.CachedRuns
/-!
# What a cache holds

A cache makes room before it takes a decision in, so it holds at most as many decisions as it may; only a
cache that may hold none holds one.  The decisions stand in the order of their times, which is why those
dropped to make room are the oldest ones, and every look-up is counted as a hit, a miss or an expiry.

One step of the cache keeps all of that (`Bounded.lookup`, `Bounded.insert`, `Bounded.invalidate`,
`Bounded.wait`), so every run does (`bounded_uses`).

    after room was made there is a place            (`length_evict_lt`)
    what is dropped is older than what is kept      (`Bounded.evict_oldest`)
-/

namespace AccessControl

namespace DecisionCache

variable {c : DecisionCache} {now : Nat} {key : String} {decision : Decision} {a b : CacheEntry}

/-! ## One step -/

@[simp] theorem config_lookup : (c.lookup now key).2.config = c.config := by
  unfold lookup
  split
  · split <;> rfl
  · rfl

@[simp] theorem config_evict : (c.evict now).config = c.config := by
  unfold evict
  dsimp only
  split <;> rfl

@[simp] theorem config_insert : (c.insert now key decision).config = c.config := by
  unfold insert
  dsimp only
  split
  · rfl
  · exact config_evict

/-- The look-ups that were counted. -/
def counted (c : DecisionCache) : Nat := c.hits + c.misses + c.expirations

theorem counted_lookup : (c.lookup now key).2.counted = c.counted + 1 := by
  unfold lookup counted
  split
  · split <;> dsimp only <;> omega
  · dsimp only
    omega

theorem counted_insert : (c.insert now key decision).counted = c.counted := by
  unfold insert evict counted
  dsimp only
  split
  · rfl
  · split <;> rfl

/-- What is left after a look-up or after room was made stands in its order. -/
theorem sublist_lookup : (c.lookup now key).2.entries.Sublist c.entries := by
  unfold lookup
  split
  · split
    · exact List.filter_sublist
    · exact List.Sublist.refl _
  · exact List.Sublist.refl _

theorem sublist_evict : (c.evict now).entries.Sublist c.entries := by
  unfold evict
  dsimp only
  split
  · exact List.filter_sublist
  · exact (List.drop_sublist _ _).trans List.filter_sublist

/-- After room was made there is a place, unless the cache may hold nothing. -/
theorem length_evict_lt (h : c.entries.length ≤ max c.config.capacity 1) :
    (c.evict now).entries.length < max c.config.capacity 1 := by
  have hfresh : (c.entries.filter fun entry => !c.isExpired now entry).length ≤ c.entries.length :=
    List.length_filter_le _ _
  unfold evict
  dsimp only
  split
  · dsimp only
    omega
  · dsimp only
    rw [List.length_drop]
    omega

/-- The decisions before a new one, and the new one. -/
theorem entries_insert (c : DecisionCache) (now : Nat) (key : String) (decision : Decision) :
    ∃ before : List CacheEntry, before.Sublist c.entries ∧
    (c.entries.length ≤ max c.config.capacity 1 → before.length < max c.config.capacity 1) ∧
      (c.insert now key decision).entries = before ++ [⟨key, decision, now⟩] := by
  unfold insert
  split
  · next hroom =>
    refine ⟨_, List.filter_sublist, fun _ => ?_, rfl⟩
    have hfilter : (c.entries.filter fun entry => entry.key != key).length ≤ c.entries.length :=
      List.length_filter_le _ _
    omega
  · refine ⟨_, List.filter_sublist.trans sublist_evict, fun h => ?_, rfl⟩
    have hfilter : ((c.evict now).entries.filter fun entry => entry.key != key).length ≤
        (c.evict now).entries.length := List.length_filter_le _ _
    have hroom : (c.evict now).entries.length < max c.config.capacity 1 := length_evict_lt h
    omega

/-! ## What every step keeps -/

/-- The state of a cache with these settings after so many look-ups. -/
structure Bounded (config : CacheConfig) (asked now : Nat) (c : DecisionCache) : Prop where
  config_eq : c.config = config
  length_le : c.entries.length ≤ max config.capacity 1
  /-- The oldest decision stands first. -/
  ordered : c.entries.Pairwise fun a b => a.time ≤ b.time
  past : ∀ entry ∈ c.entries, entry.time ≤ now
  counted_eq : c.counted = asked

namespace Bounded

variable {config : CacheConfig} {asked : Nat}

theorem start : Bounded config 0 now { config } :=
  ⟨rfl, Nat.zero_le _, List.Pairwise.nil, by simp, rfl⟩

theorem lookup (h : Bounded config asked now c) : Bounded config (asked + 1) now (c.lookup now key).2 where
  config_eq := by rw [config_lookup, h.config_eq]
  length_le := sublist_lookup.length_le.trans h.length_le
  ordered := h.ordered.sublist sublist_lookup
  past entry hentry := h.past entry (sublist_lookup.subset hentry)
  counted_eq := by rw [counted_lookup, h.counted_eq]

theorem insert (h : Bounded config asked now c) : Bounded config asked now (c.insert now key decision) := by
  obtain ⟨before, hsub, hroom, heq⟩ := entries_insert c now key decision
  rw [h.config_eq] at hroom
  refine ⟨by rw [config_insert, h.config_eq], ?_, ?_, ?_, by rw [counted_insert, h.counted_eq]⟩
  · have hlt := hroom h.length_le
    rw [heq, List.length_append, List.length_singleton]
    omega
  · rw [heq, List.pairwise_append]
    refine ⟨h.ordered.sublist hsub, List.pairwise_singleton _ _, fun a ha b hb => ?_⟩
    rw [List.mem_singleton.1 hb]
    exact h.past a (hsub.subset ha)
  · intro entry hentry
    rw [heq] at hentry
    rcases List.mem_append.1 hentry with hold | hnew
    · exact h.past entry (hsub.subset hold)
    · rw [List.mem_singleton.1 hnew]

theorem invalidate (h : Bounded config asked now c) : Bounded config asked now c.invalidate :=
  ⟨h.config_eq, Nat.zero_le _, List.Pairwise.nil, by simp [DecisionCache.invalidate], h.counted_eq⟩

theorem wait (h : Bounded config asked now c) (nanos : Nat) : Bounded config asked (now + nanos) c :=
  ⟨h.config_eq, h.length_le, h.ordered,
    fun entry hentry => (h.past entry hentry).trans (Nat.le_add_right _ _), h.counted_eq⟩

/-- A decision that was dropped to make room though it is not expired takes all older ones along. -/
theorem evict_oldest (h : Bounded config asked now c) {time : Nat} (ha : a ∈ c.entries)
    (hfresh : c.isExpired time a = false) (hgone : a ∉ (c.evict time).entries) (holder : b.time < a.time) :
    b ∉ (c.evict time).entries := by
  have hmem : a ∈ c.entries.filter fun entry => !c.isExpired time entry :=
    List.mem_filter.2 ⟨ha, by rw [hfresh]; rfl⟩
  have hordered := h.ordered.sublist
    (List.filter_sublist (p := fun entry => !c.isExpired time entry) (l := c.entries))
  unfold DecisionCache.evict at hgone ⊢
  dsimp only at hgone ⊢
  split at hgone
  · exact absurd hmem hgone
  · next hfull =>
    rw [if_neg hfull]
    intro hb
    dsimp only at hgone hb
    -- the dropped ones stand before those that stay
    generalize max (c.config.capacity / 10) 1 = n at hgone hb
    rw [← List.take_append_drop n (c.entries.filter fun entry => !c.isExpired time entry)] at hmem hordered
    have htake : a ∈ (c.entries.filter fun entry => !c.isExpired time entry).take n :=
      (List.mem_append.1 hmem).resolve_right hgone
    have hle := (List.pairwise_append.1 hordered).2.2 a htake b hb
    omega

end Bounded

end DecisionCache

/-! ## Runs -/

namespace CachedAuthorizer

open Authorizer (Op)

variable {α : Type}

/-- What can happen to an authorizer with a cache around it.  An authorization asks the cache first and has
its decision remembered later, so that anything can happen in between. -/
inductive Use (α : Type) where
  | run (op : Op)
  | ask (ctx : Context) (request : List Value)
  | remember (ctx : Context) (request : List Value) (decision : Decision)
  /-- Something is done to the authorizer inside. -/
  | change (f : α → α)
  | invalidate
  | wait (nanos : Nat)

/-- The authorizations that begin with a use. -/
def Use.asked : Use α → Nat
  | .run (.decide _ _) | .ask _ _ => 1
  | _ => 0

variable [Authorizer α]

def use (c : CachedAuthorizer α) : Use α → CachedAuthorizer α
  | .run op => (Authorizer.run c op).2
  | .ask ctx request => { c with cache := (c.cache.lookup c.now (cacheKey ctx request)).2 }
  | .remember ctx request decision =>
    { c with cache := c.cache.insert c.now (cacheKey ctx request) decision }
  | .change f => (c.change fun a => ((), f a)).2
  | .invalidate => c.invalidate
  | .wait nanos => c.wait nanos

open DecisionCache

variable {c : CachedAuthorizer α} {config : CacheConfig} {asked : Nat}

/-- A request is one look-up, and at most one decision is remembered. -/
theorem bounded_decide (h : Bounded config asked c.now c.cache) (ctx : Context) (request : List Value) :
    Bounded config (asked + 1) (c.decide ctx request).2.now (c.decide ctx request).2.cache := by
  have hlookup : Bounded config (asked + 1) c.now (c.cache.lookup c.now (cacheKey ctx request)).2 :=
    h.lookup
  unfold CachedAuthorizer.decide
  dsimp only
  split
  · next decision cache heq =>
    rw [heq] at hlookup
    exact hlookup
  · next cache heq =>
    rw [heq] at hlookup
    split
    · exact hlookup.insert
    · exact hlookup

/-- A use keeps the bounds, and adds to the look-ups the authorization it begins. -/
theorem bounded_use (h : Bounded config asked c.now c.cache) (u : Use α) :
    Bounded config (asked + u.asked) (c.use u).now (c.use u).cache := by
  cases u with
  | run op =>
    cases op with
    | decide ctx request => exact bounded_decide h ctx request
    | rows | filteredRows | hasRow | directRoles | directUsers => exact h
    | save => exact h
    | _ => exact h.invalidate
  | ask ctx request => exact h.lookup
  | remember ctx request decision => exact h.insert
  | change f => exact h.invalidate
  | invalidate => exact h.invalidate
  | wait nanos => exact h.wait nanos

theorem bounded_uses (h : Bounded config asked c.now c.cache) (uses : List (Use α)) :
    Bounded config (asked + (uses.map Use.asked).sum) (uses.foldl use c).now
      (uses.foldl use c).cache := by
  induction uses generalizing c asked with
  | nil => exact h
  | cons u rest ih =>
    have hrest := ih (bounded_use h u)
    rwa [Nat.add_assoc] at hrest

/-! ## Top theorem (proved from the lemmas above) -/

/-- **What a cache holds is bounded, the oldest decisions go first, and every authorization is counted.**
After any run, around any authorizer: the cache holds at most as many decisions as its capacity, and one if
that is zero; making room at any time drops a decision that is not expired only along with all that are
older; and hits, misses and expiries add up to the authorizations that were asked. -/
theorem cache_bounded (inner : α) (config : CacheConfig) (now : Nat) (uses : List (Use α)) :
    let c := uses.foldl use { inner, cache := { config }, now }
    c.cache.entries.length ≤ max config.capacity 1 ∧
    (∀ time, ∀ a ∈ c.cache.entries, c.cache.isExpired time a = false →
      a ∉ (c.cache.evict time).entries → ∀ b : CacheEntry, b.time < a.time →
        b ∉ (c.cache.evict time).entries) ∧
    c.cache.hits + c.cache.misses + c.cache.expirations = (uses.map Use.asked).sum := by
  intro c
  let first : CachedAuthorizer α := { inner, cache := { config }, now }
  have hfirst : Bounded config 0 first.now first.cache := Bounded.start
  have h : Bounded config (0 + (uses.map Use.asked).sum) c.now c.cache := bounded_uses hfirst uses
  refine ⟨h.length_le, fun time a ha hfresh hgone b holder => h.evict_oldest ha hfresh hgone holder, ?_⟩
  rw [← Nat.zero_add (uses.map Use.asked).sum, ← h.counted_eq]
  rfl

/-- A cache that may hold no decision holds one after the first authorization. -/
theorem not_always_within_capacity : ∃ (e : Enforcer MemoryStore) (config : CacheConfig)
    (uses : List (Use (Enforcer MemoryStore))),
    config.capacity <
      (uses.foldl use { inner := e, cache := { config }, now := 0 }).cache.entries.length :=
  ⟨{ model := rbacModel, store := {}, managers := [("g", {})], config := { enabled := false } },
    { capacity := 0 }, [.run (.decide {} [.str "ann"])], by decide⟩

end CachedAuthorizer

end AccessControl
