import AccessControl.Authorizer.Cached
import AccessControl.Proofs.Authorizer.Keys
import AccessControl.Proofs.Enforcer.Evaluations
import AccessControl.Proofs.Enforcer.RoleBased
/-!
# A cache is not seen in the answers

Two systems take the same events: an enforcer with a cache around it, and an enforcer alone.  They stay in
step (`InStepWith`): the enforcer inside is alike to the one alone, and what the cache remembers for a key is
what the enforcer inside answers now, whoever asks under that key.  Only a request of which the key does not
tell the values could find the decision of another one.

An event is an operation on the outside, an operation or a call on the enforcer inside, another enforcer in
its place, time that passes, or the loss of any decisions.  An enforcer alone has no cache, so the last two
do nothing to it.

    a request finds the decision that the enforcer inside makes        (`InStepWith.decide`)
    one event is answered alike, and keeps the two in step             (`InStepWith.handle`)
    so is a run of events                                              (`cached_answers_eq`)
-/

namespace AccessControl

/-! ## Operations -/

namespace Authorizer

/-- The operations of an authorizer, with what they are given. -/
inductive Op where
  | decide (ctx : Context) (request : List Value)
  | rows (sec name : String)
  | filteredRows (sec name : String) (index : Nat) (values : List String)
  | hasRow (sec name : String) (row : Row)
  | directRoles (name user : String) (domain : Option String)
  | directUsers (name role : String) (domain : Option String)
  | addRows (sec name : String) (rows : List Row)
  | removeRows (sec name : String) (rows : List Row)
  | removeFiltered (sec name : String) (index : Nat) (values : List String)
  | updateRow (sec name : String) (old new : Row)
  | load
  | save
  | clear

/-- The answers to operations. -/
inductive Answer where
  | decision (result : Except Error Decision)
  | rows (rows : List Row)
  | holds (b : Bool)
  | names (result : Except Error (List String))
  | changed (result : Except Error Bool)
  | done (result : Except Error Unit)

/-- Does an operation. -/
def run {α : Type} [Authorizer α] (a : α) : Op → Answer × α
  | .decide ctx request => (decide a ctx request).map .decision id
  | .rows sec name => (.rows (rows a sec name), a)
  | .filteredRows sec name index values => (.rows (filteredRows a sec name index values), a)
  | .hasRow sec name row => (.holds (hasRow a sec name row), a)
  | .directRoles name user domain => (.names (directRoles a name user domain), a)
  | .directUsers name role domain => (.names (directUsers a name role domain), a)
  | .addRows sec name rows => (addRows a sec name rows).map .changed id
  | .removeRows sec name rows => (removeRows a sec name rows).map .changed id
  | .removeFiltered sec name index values => (removeFiltered a sec name index values).map .changed id
  | .updateRow sec name old new => (updateRow a sec name old new).map .changed id
  | .load => (load a).map .done id
  | .save => (save a).map .done id
  | .clear => (clear a).map .done id

end Authorizer

open Authorizer

/-! ## Events -/

section

variable {σ : Type} [PolicyStore σ]

/-- What can happen to an enforcer with a cache around it. -/
inductive Event (σ : Type) [PolicyStore σ] where
  | outside (op : Op)
  | inside (op : Op)
  | call (c : Enforcer.Call σ)
  | replace (k : Enforcer σ) (h : Enforcer.Reachable Enforcer.Made (fun _ _ => True) k)
  | wait (nanos : Nat)
  | lose (keep : CacheEntry → Bool)

/-- Strings and names without a NUL character are told. -/
theorem keyTells_strings {ctx : Context} (hctx : ctx.Unsplit) (texts : List String)
    (h : ∀ s ∈ texts, '\x00' ∉ s.toList) : KeyTells ctx (texts.map .str) :=
  ⟨hctx, List.forall_mem_map.2 fun s hs => ⟨.str s, h s hs⟩⟩

/-- The key of a request on the outside tells its values. -/
def Event.Told : Event σ → Prop
  | .outside (.decide ctx request) => KeyTells ctx request
  | _ => True

namespace CachedAuthorizer

variable {α : Type}

/-- Only some decisions are left. -/
def lose (c : CachedAuthorizer α) (keep : CacheEntry → Bool) : CachedAuthorizer α :=
  { c with cache := { c.cache with entries := c.cache.entries.filter keep } }

/-- Takes an event. -/
def handle (c : CachedAuthorizer (Enforcer σ)) : Event σ → Answer × CachedAuthorizer (Enforcer σ)
  | .outside op => run c op
  | .inside op => c.change fun e => run e op
  | .call x => c.change fun e => (e.perform x).map .done id
  | .replace k _ => c.change fun _ => (.done (.ok ()), k)
  | .wait nanos => (.done (.ok ()), c.wait nanos)
  | .lose keep => (.done (.ok ()), c.lose keep)

end CachedAuthorizer

/-- Takes an event without a cache. -/
def Enforcer.handle (e : Enforcer σ) : Event σ → Answer × Enforcer σ
  | .outside op | .inside op => run e op
  | .call x => (e.perform x).map .done id
  | .replace k _ => (.done (.ok ()), k)
  | .wait _ | .lose _ => (.done (.ok ()), e)

end

/-- The answers to events, one after the other. -/
def answers {α ε β : Type} (handle : α → ε → β × α) (a : α) : List ε → List β
  | [] => []
  | event :: rest => (handle a event).1 :: answers handle (handle a event).2 rest

/-- Two systems in step answer alike, when one event is answered alike and keeps them in step. -/
theorem answers_eq {α γ ε β : Type} {handle : α → ε → β × α} {other : γ → ε → β × γ}
    (follows : α → γ → Prop) (good : ε → Prop)
    (hstep : ∀ a b event, follows a b → good event →
      (handle a event).1 = (other b event).1 ∧ follows (handle a event).2 (other b event).2)
    {a : α} {b : γ} (h : follows a b) (events : List ε) (hgood : ∀ event ∈ events, good event) :
    answers handle a events = answers other b events := by
  induction events generalizing a b with
  | nil => rfl
  | cons event rest ih =>
    obtain ⟨hanswer, hnext⟩ := hstep a b event h (hgood event List.mem_cons_self)
    rw [answers, answers, hanswer,
      ih hnext fun event hmem => hgood event (List.mem_cons_of_mem _ hmem)]

/-! ## Caches -/

namespace DecisionCache

variable {c : DecisionCache} {now : Nat} {key : String} {decision : Decision} {entry : CacheEntry}

/-- A decision that is found is one that is remembered for the key. -/
theorem lookup_eq_some (h : (c.lookup now key).1 = some decision) :
    ∃ entry ∈ c.entries, entry.key = key ∧ entry.decision = decision := by
  unfold lookup at h
  split at h
  · next entry hfind =>
    split at h
    · simp at h
    · exact ⟨entry, List.mem_of_find?_eq_some hfind, by simpa using List.find?_some hfind,
        Option.some.inj h⟩
  · simp at h

theorem mem_of_mem_lookup (h : entry ∈ (c.lookup now key).2.entries) : entry ∈ c.entries := by
  unfold lookup at h
  split at h
  · split at h
    · exact List.mem_of_mem_filter h
    · exact h
  · exact h

theorem mem_of_mem_evict (h : entry ∈ (c.evict now).entries) : entry ∈ c.entries := by
  unfold evict at h
  dsimp only at h
  split at h
  · exact List.mem_of_mem_filter h
  · exact List.mem_of_mem_filter (List.mem_of_mem_drop h)

/-- After a decision is taken in, only it and what was there are remembered. -/
theorem mem_of_mem_insert (h : entry ∈ (c.insert now key decision).entries) :
    entry ∈ c.entries ∨ entry.key = key ∧ entry.decision = decision := by
  unfold insert at h
  rcases List.mem_append.1 h with hold | hnew
  · refine Or.inl ?_
    have hroom := List.mem_of_mem_filter hold
    split at hroom
    · exact hroom
    · exact mem_of_mem_evict hroom
  · rw [List.mem_singleton.1 hnew]
    exact Or.inr ⟨rfl, rfl⟩

end DecisionCache

/-! ## The enforcer inside -/

namespace Enforcer

variable {σ : Type}

/-- Both decide every request alike. -/
def DecidesAs (e k : Enforcer σ) : Prop :=
  ∀ ctx request, (k.enforce ctx request).1 = (e.enforce ctx request).1

/-- A decision does not change decisions. -/
theorem decidesAs_enforce {e : Enforcer σ} (he : e.Valid) (ctx : Context) (request : List Value) :
    e.DecidesAs (e.enforce ctx request).2 := by
  obtain ⟨v, heq, hright⟩ := e.enforce_frame ctx request
  rw [heq]
  exact enforce_withEvaluation he.programs (hright he.programs)

/-- A decision leaves an enforcer alike to one that did not make it. -/
theorem Alike.enforced {e k : Enforcer σ} (h : e.Alike k) (ctx : Context) (request : List Value) :
    (e.enforce ctx request).2.Alike k := by
  obtain ⟨v, rfl⟩ := h
  obtain ⟨w, heq, -⟩ := e.enforce_frame ctx request
  rw [heq]
  exact ⟨v, rfl⟩

/-- Decisions do not look at the store. -/
theorem decidesAs_store (e : Enforcer σ) (store : σ) : e.DecidesAs { e with store } := by
  intro ctx request
  have hscope : ({ e with store } : Enforcer σ).scope = e.scope := rfl
  unfold enforce
  rw [hscope]
  split
  · rcases e.model.question ctx request with _ | q
    · rfl
    dsimp only
    rcases (EvalM.compile e.scope q.matcher).run e.evaluation with ⟨_ | _, _⟩ <;> rfl
  · rfl

/-- An answer that is put in a constructor. -/
theorem alike_map {β γ : Type} {x y : β × Enforcer σ} (f : β → γ) (h : ∃ w, y = carry w x) :
    (y.map f id).1 = (x.map f id).1 ∧ (x.map f id).2.Alike (y.map f id).2 := by
  obtain ⟨w, rfl⟩ := h
  exact ⟨rfl, w, rfl⟩

variable [PolicyStore σ]

theorem decidesAs_save (e : Enforcer σ) : e.DecidesAs e.save.2 := by
  rcases hsave : e.save with ⟨result, k⟩
  obtain ⟨store, rfl⟩ := save_eq hsave
  exact e.decidesAs_store store

/-- What an operation leaves is what no call or one call leaves. -/
theorem run_state (e : Enforcer σ) (op : Op) :
    (run e op).2 = e ∨ ∃ c, (run e op).2 = (e.perform c).2 := by
  cases op with
  | rows | filteredRows | hasRow | directRoles | directUsers => exact Or.inl rfl
  | decide ctx request => exact Or.inr ⟨.enforce ctx request, rfl⟩
  | addRows sec name rows => exact Or.inr ⟨.addRows sec name rows, rfl⟩
  | removeRows sec name rows => exact Or.inr ⟨.removeRows sec name rows, rfl⟩
  | removeFiltered sec name index values => exact Or.inr ⟨.removeFiltered sec name index values, rfl⟩
  | updateRow sec name old new => exact Or.inr ⟨.updateRow sec name old new, rfl⟩
  | load => exact Or.inr ⟨.load, rfl⟩
  | save => exact Or.inr ⟨.save, rfl⟩
  | clear => exact Or.inr ⟨.clear, rfl⟩

theorem valid_run {e : Enforcer σ} (he : e.Valid) (op : Op) : (run e op).2.Valid := by
  rcases run_state e op with heq | ⟨c, heq⟩
  · rwa [heq]
  · rw [heq]
    exact valid_perform he c

/-- Alike enforcers answer every operation alike, and stay alike. -/
theorem Alike.run {e k : Enforcer σ} (h : e.Alike k) (he : e.Valid) (hk : k.Valid) (op : Op) :
    (Authorizer.run k op).1 = (Authorizer.run e op).1 ∧
      (Authorizer.run e op).2.Alike (Authorizer.run k op).2 := by
  obtain ⟨v, rfl⟩ := h
  cases op with
  | decide ctx request =>
    obtain ⟨hanswer, hnext⟩ := Alike.enforce ⟨v, rfl⟩ he hk ctx request
    exact ⟨congrArg Answer.decision hanswer, hnext⟩
  | rows | filteredRows | hasRow | directRoles | directUsers => exact ⟨rfl, v, rfl⟩
  | addRows _ _ rows => exact alike_map _ ⟨v, addRows_withEvaluation e v rows⟩
  | removeRows _ _ rows => exact alike_map _ ⟨v, removeRows_withEvaluation e v rows⟩
  | removeFiltered _ _ index values =>
    exact alike_map _ ⟨v, removeFiltered_withEvaluation e v index values⟩
  | updateRow _ _ old new => exact alike_map _ ⟨v, updateRow_withEvaluation e v old new⟩
  | load => exact alike_map _ ⟨v, load_withEvaluation e v⟩
  | save => exact alike_map _ ⟨v, save_withEvaluation e v⟩
  | clear => exact alike_map _ ⟨v, clear_withEvaluation e v⟩

end Enforcer

/-! ## In step -/

namespace CachedAuthorizer

variable {σ : Type}

/-- What is remembered for a key is what the enforcer inside answers to all that have this key. -/
def Recalls (c : CachedAuthorizer (Enforcer σ)) : Prop :=
  ∀ entry ∈ c.cache.entries, ∀ ctx request, KeyTells ctx request → cacheKey ctx request = entry.key →
    (c.inner.enforce ctx request).1 = .ok entry.decision

/-- An enforcer with a cache is in step with an enforcer alone. -/
structure InStepWith (c : CachedAuthorizer (Enforcer σ)) (e : Enforcer σ) : Prop where
  inner : c.inner.Valid
  alone : e.Valid
  alike : e.Alike c.inner
  recalls : c.Recalls

variable {c : CachedAuthorizer (Enforcer σ)} {e : Enforcer σ}

theorem Recalls.mono (h : c.Recalls) {d : CachedAuthorizer (Enforcer σ)}
    (hinner : c.inner.DecidesAs d.inner) (hentries : ∀ entry ∈ d.cache.entries, entry ∈ c.cache.entries) :
    d.Recalls := by
  intro entry hentry ctx request htells hkey
  rw [hinner]
  exact h entry (hentries entry hentry) ctx request htells hkey

theorem recalls_of_nil (h : c.cache.entries = []) : c.Recalls := by
  intro entry hentry
  rw [h] at hentry
  exact absurd hentry List.not_mem_nil

/-- A change of the enforcer inside leaves nothing to recall. -/
theorem inStepWith_change {β : Type} {f : Enforcer σ → β × Enforcer σ} {answer : β × Enforcer σ}
    (hanswer : (f c.inner).1 = answer.1) (halike : answer.2.Alike (f c.inner).2)
    (hinner : (f c.inner).2.Valid) (halone : answer.2.Valid) :
    (c.change f).1 = answer.1 ∧ (c.change f).2.InStepWith answer.2 :=
  ⟨hanswer, hinner, halone, halike, recalls_of_nil rfl⟩

variable [PolicyStore σ] {ctx : Context} {request : List Value}

/-- A decision that is found is the one the enforcer inside makes. -/
theorem InStepWith.decide_hit (h : c.InStepWith e) (htells : KeyTells ctx request) {decision : Decision}
    {cache : DecisionCache}
    (hlookup : c.cache.lookup c.now (cacheKey ctx request) = (some decision, cache)) :
    (e.enforce ctx request).1 = .ok decision ∧
      ({ c with cache } : CachedAuthorizer (Enforcer σ)).InStepWith (e.enforce ctx request).2 := by
  obtain ⟨entry, hentry, hkey, hdecision⟩ :=
    DecisionCache.lookup_eq_some (congrArg Prod.fst hlookup)
  have hcache : cache = (c.cache.lookup c.now (cacheKey ctx request)).2 := by rw [hlookup]
  refine ⟨?_, h.inner, Enforcer.valid_perform h.alone (.enforce ctx request), h.alike.enforced ctx request,
    h.recalls.mono (fun _ _ => rfl) fun entry hmem => ?_⟩
  · rw [← (h.alike.enforce h.alone h.inner ctx request).1, ← hdecision]
    exact h.recalls entry hentry ctx request htells hkey.symm
  · rw [hcache] at hmem
    exact DecisionCache.mem_of_mem_lookup hmem

/-- A decision that is made may be remembered. -/
theorem InStepWith.decide_miss (h : c.InStepWith e) (htells : KeyTells ctx request) {cache : DecisionCache}
    (hcache : ∀ entry ∈ cache.entries, entry ∈ c.cache.entries ∨ entry.key = cacheKey ctx request ∧
      (c.inner.enforce ctx request).1 = .ok entry.decision) :
    ({ c with inner := (c.inner.enforce ctx request).2, cache } :
      CachedAuthorizer (Enforcer σ)).InStepWith (e.enforce ctx request).2 := by
  obtain ⟨-, halike⟩ := h.alike.enforce h.alone h.inner ctx request
  refine ⟨Enforcer.valid_perform h.inner (.enforce ctx request),
    Enforcer.valid_perform h.alone (.enforce ctx request), halike, ?_⟩
  intro entry hentry other asked hother hkey
  have hsame := Enforcer.decidesAs_enforce h.inner ctx request other asked
  dsimp only
  rw [hsame]
  rcases hcache entry hentry with hold | ⟨hnew, hdecision⟩
  · exact h.recalls entry hold other asked hother hkey
  · -- only this request has the key
    obtain ⟨rfl, rfl⟩ := eq_of_cacheKey hother htells (hkey.trans hnew)
    exact hdecision

/-- A request gets the decision that the enforcer alone makes, from the enforcer inside or from the
cache. -/
theorem InStepWith.decide (h : c.InStepWith e) (htells : KeyTells ctx request) :
    (c.decide ctx request).1 = (e.enforce ctx request).1 ∧
      (c.decide ctx request).2.InStepWith (e.enforce ctx request).2 := by
  obtain ⟨hanswer, -⟩ := h.alike.enforce h.alone h.inner ctx request
  unfold CachedAuthorizer.decide
  dsimp only [Authorizer.decide]
  rcases hlookup : c.cache.lookup c.now (cacheKey ctx request) with ⟨_ | decision, cache⟩
  · have hcache : ∀ entry ∈ cache.entries, entry ∈ c.cache.entries := fun entry hmem => by
      rw [show cache = (c.cache.lookup c.now (cacheKey ctx request)).2 by rw [hlookup]] at hmem
      exact DecisionCache.mem_of_mem_lookup hmem
    rcases hinner : c.inner.enforce ctx request with ⟨err | decision, inner⟩
    · have hnext := h.decide_miss htells fun entry hmem => Or.inl (hcache entry hmem)
      rw [hinner] at hanswer hnext
      exact ⟨hanswer, hnext⟩
    · have hinsert : ∀ entry ∈ (cache.insert c.now (cacheKey ctx request) decision).entries,
          entry ∈ c.cache.entries ∨ entry.key = cacheKey ctx request ∧
            (c.inner.enforce ctx request).1 = .ok entry.decision := by
        intro entry hmem
        rcases DecisionCache.mem_of_mem_insert hmem with hold | ⟨hkey, hdecision⟩
        · exact Or.inl (hcache entry hold)
        · rw [hinner, hdecision]
          exact Or.inr ⟨hkey, rfl⟩
      have hnext := h.decide_miss htells hinsert
      rw [hinner] at hanswer hnext
      exact ⟨hanswer, hnext⟩
  · obtain ⟨hfound, hnext⟩ := h.decide_hit htells hlookup
    exact ⟨hfound.symm, hnext⟩

/-- An operation on the outside is answered as by the enforcer alone, and keeps the two in step. -/
theorem InStepWith.run (h : c.InStepWith e) (op : Op) (htells : (Event.outside op : Event σ).Told) :
    (run c op).1 = (run e op).1 ∧ (run c op).2.InStepWith (run e op).2 := by
  have hinner := h.alike.run h.alone h.inner op
  have hvalid := Enforcer.valid_run h.inner op
  have halone := Enforcer.valid_run h.alone op
  cases op with
  | decide ctx request =>
    obtain ⟨hanswer, hnext⟩ := h.decide htells
    exact ⟨congrArg Answer.decision hanswer, hnext⟩
  | rows | filteredRows | hasRow | directRoles | directUsers => exact ⟨hinner.1, h⟩
  | save =>
    exact ⟨hinner.1, hvalid, halone, hinner.2,
      h.recalls.mono c.inner.decidesAs_save fun _ hmem => hmem⟩
  | _ => exact ⟨hinner.1, hvalid, halone, hinner.2, recalls_of_nil rfl⟩

/-- Every event is answered as by the enforcer alone, and keeps the two in step. -/
theorem InStepWith.handle (h : c.InStepWith e) (event : Event σ) (htells : event.Told) :
    (c.handle event).1 = (e.handle event).1 ∧ (c.handle event).2.InStepWith (e.handle event).2 := by
  cases event with
  | outside op => exact h.run op htells
  | inside op =>
    obtain ⟨hanswer, halike⟩ := h.alike.run h.alone h.inner op
    exact inStepWith_change hanswer halike (Enforcer.valid_run h.inner op) (Enforcer.valid_run h.alone op)
  | call x =>
    obtain ⟨hanswer, halike⟩ := h.alike.perform h.alone h.inner x
    exact inStepWith_change (congrArg Answer.done hanswer) halike (Enforcer.valid_perform h.inner x)
      (Enforcer.valid_perform h.alone x)
  | replace k hk =>
    have hvalid : k.Valid := hk.valid fun _ h => h
    exact inStepWith_change rfl (.refl k) hvalid hvalid
  | wait nanos => exact ⟨rfl, h.inner, h.alone, h.alike, h.recalls⟩
  | lose keep =>
    exact ⟨rfl, h.inner, h.alone, h.alike,
      h.recalls.mono (fun _ _ => rfl) fun _ hmem => List.mem_of_mem_filter hmem⟩

end CachedAuthorizer

/-! ## Top theorem (proved from the lemmas above) -/

section

open Enforcer

/-- **The cache is not seen.**  Take an enforcer in any state, with an empty cache of any capacity and time
to live around it, and any run of events: operations on the outside, operations, calls and replacements of
the enforcer inside, whether they succeed or fail, and any expiries and evictions.  As long as the key of
every request on the outside tells its values, the answers are those that the enforcer alone gives. -/
theorem cached_answers_eq {σ : Type} [PolicyStore σ] {e : Enforcer σ}
    (he : Reachable Made (fun _ _ => True) e) (config : CacheConfig) (now : Nat)
    {events : List (Event σ)} (htold : ∀ event ∈ events, event.Told) :
    answers CachedAuthorizer.handle { inner := e, cache := { config }, now } events =
      answers Enforcer.handle e events := by
  have hvalid : e.Valid := he.valid fun _ h => h
  exact answers_eq CachedAuthorizer.InStepWith Event.Told (fun _ _ event h htells => h.handle event htells)
    ⟨hvalid, hvalid, .refl e, CachedAuthorizer.recalls_of_nil rfl⟩ events htold

set_option maxRecDepth 20000 in
/-- What was allowed while enforcement was off, the second time from the cache, is not allowed any more once
it is on: the request has too few values, and the error is not hidden by the decision that was
remembered. -/
theorem cached_answers_eq_enabled : ∃ e : Enforcer MemoryStore, Reachable Made (fun _ _ => True) e ∧
    let ask : Event MemoryStore := .outside (.decide {} [.str "ann"])
    let c : CachedAuthorizer (Enforcer MemoryStore) := { inner := e }
    ((c.handle ask).2.handle ask).2.cache.hits = 1 ∧
      answers CachedAuthorizer.handle c [ask, ask, .call (.enable true), ask] =
        [.decision (.ok { allowed := true }), .decision (.ok { allowed := true }), .done (.ok ()),
          .decision (.error (.model (.requestArity 3 1)))] := by
  let e : Enforcer MemoryStore :=
    { model := rbacModel, store := {}, managers := [("g", {})], config := { enabled := false } }
  have hmade : e.Made := ⟨rbacModel, {}, { enabled := false }, Model.built_ofText ofText_rbacText, rfl⟩
  have htells : KeyTells {} [.str "ann"] :=
    keyTells_strings (by unfold Context.Unsplit; decide) ["ann"] (by decide)
  let ask : Event MemoryStore := .outside (.decide {} [.str "ann"])
  have htold : ∀ event ∈ [ask, ask, .call (.enable true), ask], event.Told := by
    simpa [ask, Event.Told] using htells
  exact ⟨e, .start hmade, rfl, (cached_answers_eq (.start hmade) {} 0 htold).trans rfl⟩

end

end AccessControl
