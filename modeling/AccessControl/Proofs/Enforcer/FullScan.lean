import AccessControl.Enforcer.Enforcement
import AccessControl.Proofs.Effect.Law
import AccessControl.Proofs.Matcher.Cache
/-!
# Decisions as full scans

A decision tries rows in order, keeps those whose matcher holds, and stops as soon as their effects
settle it.  `fullScan` is the decision without the stopping: all matching rows are taken together, and
the first row of the effect that counts explains it.

The scan keeps two lists in step, the effects and the rows that contributed them; up to the decision
the stream is at the law of the effects so far, and after it nothing could change any more.

    the rows tried one by one decide as all matching rows together     (`scanRows_decision`)
    with right programs, q.decide … = fullScan …                       (`decide_eq_fullScan`)
-/

namespace AccessControl

/-- Whether a program holds: it gives `true`, neither `false` nor an error. -/
def Program.holds (program : Program) (scope : Scope) (bindings : Bindings) : Bool :=
  match ((program.evaluate scope bindings).run {}).1 with
  | .ok b => b
  | .error _ => false

/-- What a row says by the effect field of its definition; without such a field it allows. -/
def Definition.statedEffect (p : Definition) (row : Row) : Effect :=
  match p.fieldIndex (p.key ++ "_eft") with
  | none => .allow
  | some i =>
    if row[i]? = some "allow" then .allow
    else if row[i]? = some "deny" then .deny
    else .indeterminate

/-- The decision over all matching rows at once. -/
def fullScan (kind : EffectKind) (effectOf : Row → Effect) (matched : List Row) : Decision :=
  let first (e : Effect) := matched.find? fun row => effectOf row == e
  match kind with
  | .allowOverride => ⟨(first .allow).isSome, (first .allow).toList⟩
  | .denyOverride => ⟨(first .deny).isNone, (first .deny).toList⟩
  | .allowAndDeny =>
    ⟨(first .allow).isSome && (first .deny).isNone, ((first .deny).or (first .allow)).toList⟩
  | .priority | .subjectPriority =>
    match matched.find? fun row => effectOf row != .indeterminate with
    | some row => ⟨effectOf row == .allow, [row]⟩
    | none => ⟨false, []⟩

/-! ## The law over rows -/

theorem find?_map_law (matched : List Row) (effectOf : Row → Effect) (p : Effect → Bool) :
    (matched.find? fun row => p (effectOf row)) =
      ((matched.map effectOf).findIdx? p).bind fun i => matched[i]? := by
  rw [List.findIdx?_map]
  exact List.find?_eq_bind_findIdx?_getElem?

/-- The rows that explain are those at the positions the law tells. -/
theorem fullScan_eq_law (kind : EffectKind) (effectOf : Row → Effect) (matched : List Row) :
    fullScan kind effectOf matched = ⟨(kind.law (matched.map effectOf)).1,
      ((kind.law (matched.map effectOf)).2.bind fun i => matched[i]?).toList⟩ := by
  have hrow : ∀ {p : Effect → Bool} {i : Nat}, (matched.map effectOf).findIdx? p = some i →
      ∃ row, matched[i]? = some row ∧ (matched.map effectOf)[i]? = some (effectOf row) := by
    intro p i hi
    obtain ⟨hlt, -, -⟩ := List.findIdx?_eq_some_iff_getElem.1 hi
    rw [List.length_map] at hlt
    exact ⟨matched[i], by simp [hlt], by simp [hlt]⟩
  have hfirst : ∀ e : Effect, (matched.find? fun row => effectOf row == e) =
      ((matched.map effectOf).findIdx? (· == e)).bind fun i => matched[i]? :=
    fun e => find?_map_law matched effectOf (· == e)
  cases kind with
  | allowOverride =>
    simp only [fullScan, EffectKind.law, hfirst]
    cases hi : (matched.map effectOf).findIdx? (· == .allow) with
    | none => rfl
    | some i =>
      obtain ⟨row, hr, -⟩ := hrow hi
      simp [hr]
  | denyOverride =>
    simp only [fullScan, EffectKind.law, hfirst]
    cases hi : (matched.map effectOf).findIdx? (· == .deny) with
    | none => rfl
    | some i =>
      obtain ⟨row, hr, -⟩ := hrow hi
      simp [hr]
  | allowAndDeny =>
    simp only [fullScan, EffectKind.law, hfirst]
    cases hi : (matched.map effectOf).findIdx? (· == .deny) with
    | none =>
      cases hj : (matched.map effectOf).findIdx? (· == .allow) with
      | none => rfl
      | some j =>
        obtain ⟨row, hr, -⟩ := hrow hj
        simp [hr]
    | some i =>
      obtain ⟨row, hr, -⟩ := hrow hi
      simp [hr]
  | priority | subjectPriority =>
    simp only [fullScan, EffectKind.law]
    rw [find?_map_law matched effectOf (· != .indeterminate)]
    cases hi : (matched.map effectOf).findIdx? (· != .indeterminate) with
    | none => rfl
    | some i =>
      obtain ⟨row, hr, he⟩ := hrow hi
      simp only [Option.bind_some, hr, he]
      rfl

theorem fullScan_congr (kind : EffectKind) {effectOf other : Row → Effect} {matched : List Row}
    (h : ∀ row ∈ matched, effectOf row = other row) :
    fullScan kind effectOf matched = fullScan kind other matched := by
  rw [fullScan_eq_law, fullScan_eq_law, List.map_congr_left h]

/-- Any allowing row is enough where allowing wins. -/
theorem allowed_fullScan_allowOverride (effectOf : Row → Effect) (matched : List Row) :
    (fullScan .allowOverride effectOf matched).allowed = true ↔
      ∃ row ∈ matched, effectOf row = .allow := by
  simp [fullScan, List.find?_isSome]

/-- Where the first row that allows or denies decides, it stands before every other one in the order of the
rows. -/
theorem fullScan_first {kind : EffectKind} (hkind : kind = .priority ∨ kind = .subjectPriority)
    {effectOf : Row → Effect} {matched : List Row} {before : Row → Row → Prop}
    (hsorted : matched.Pairwise before) {row : Row} (hrow : row ∈ matched)
    (hdecides : effectOf row ≠ .indeterminate) :
    ∃ first ∈ matched, effectOf first ≠ .indeterminate ∧
      (∀ other ∈ matched, effectOf other ≠ .indeterminate → first = other ∨ before first other) ∧
      fullScan kind effectOf matched = ⟨effectOf first == .allow, [first]⟩ := by
  obtain ⟨first, hfirst⟩ : ∃ first, (matched.find? fun r => effectOf r != .indeterminate) = some first :=
    Option.isSome_iff_exists.1 (List.find?_isSome.2 ⟨row, hrow, by simpa using hdecides⟩)
  obtain ⟨hcounts, front, back, rfl, hfront⟩ := List.find?_eq_some_iff_append.1 hfirst
  refine ⟨first, by simp, by simpa using hcounts, fun other hother hcount => ?_, ?_⟩
  · rcases List.mem_append.1 hother with hmem | hmem
    · -- no row before the first one allows or denies
      have hnot := hfront other hmem
      simp [hcount] at hnot
    · rcases List.mem_cons.1 hmem with rfl | hmem
      · exact Or.inl rfl
      · exact Or.inr (List.rel_of_pairwise_cons (List.pairwise_append.1 hsorted).2.1 hmem)
  · rcases hkind with rfl | rfl <;> simp only [fullScan, hfirst]

/-! ## The scan -/

/-- A scan that has kept some rows, none of which settled it, decides like all of them and the matching
ones among the rest together. -/
theorem scanRows_decision {test : Row → EvalState → Bool × EvalState} {holds : Row → Bool}
    (ready : EvalState → Prop)
    (htest : ∀ row state, ready state → (test row state).1 = holds row ∧ ready (test row state).2)
    (kind : EffectKind) (effectOf : Row → Effect) (kept rows : List Row) {state : EvalState}
    (hready : ready state) (hkept : ∀ row ∈ kept, kind.settles (effectOf row) = false) :
    (scanRows test effectOf ⟨.standard (.after kind (kept.map effectOf)), kept⟩ state rows).1.decision =
      fullScan kind effectOf (kept ++ rows.filter holds) := by
  have heffects : ∀ e ∈ kept.map effectOf, kind.settles e = false := by
    simpa using hkept
  induction rows generalizing kept state with
  | nil =>
    rw [List.filter_nil, List.append_nil, fullScan_eq_law, scanRows, EffectStream.after_eq heffects]
    rfl
  | cons row rest ih =>
    obtain ⟨hresult, hnext⟩ := htest row state hready
    rcases hrun : test row state with ⟨b, next⟩
    rw [hrun] at hresult hnext
    dsimp only at hresult hnext
    rw [scanRows, hrun]
    cases b with
    | false =>
      rw [List.filter_cons, ← hresult]
      exact ih kept hnext hkept heffects
    | true =>
      have hpush : (⟨.standard (.after kind (kept.map effectOf)), kept⟩ : Scan).push (effectOf row) row =
          ⟨.standard (.after kind ((kept ++ [row]).map effectOf)), kept ++ [row]⟩ := by
        rw [List.map_append, List.map_singleton, EffectStream.after_concat]
        rfl
      rw [List.filter_cons, ← hresult, if_pos rfl]
      dsimp only
      rw [hpush]
      cases hsettles : kind.settles (effectOf row) with
      | true =>
        -- the rest of the rows cannot change the law any more
        rw [List.map_append, List.map_singleton,
          EffectStream.after_settled heffects hsettles ((rest.filter holds).map effectOf)]
        simp only [Combination.ruling, if_true]
        rw [fullScan_eq_law, List.map_append, List.map_cons, Scan.decision]
        simp only [Combination.ruling, EffectKind.law_of_settles heffects hsettles]
        simp
      | false =>
        have hkept' : ∀ r ∈ kept ++ [row], kind.settles (effectOf r) = false := by
          intro r hr
          rcases List.mem_append.1 hr with hr | hr
          · exact hkept r hr
          · rwa [List.mem_singleton.1 hr]
        have heffects' : ∀ e ∈ (kept ++ [row]).map effectOf, kind.settles e = false := by
          intro e he
          obtain ⟨r, hr, rfl⟩ := List.mem_map.1 he
          exact hkept' r hr
        have hundecided : (Combination.standard
            (.after kind ((kept ++ [row]).map effectOf))).ruling.decided = false := by
          rw [EffectStream.after_eq heffects']
          rfl
        rw [hundecided, if_neg Bool.false_ne_true, ih (kept ++ [row]) hnext hkept' heffects',
          List.append_assoc, List.singleton_append]

theorem ready_scanRows {test : Row → EvalState → Bool × EvalState} (ready : EvalState → Prop)
    (htest : ∀ row state, ready state → ready (test row state).2) (effectOf : Row → Effect) (s : Scan)
    {state : EvalState} (hready : ready state) (rows : List Row) :
    ready (scanRows test effectOf s state rows).2 := by
  induction rows generalizing s state with
  | nil => exact hready
  | cons row rest ih =>
    have hnext := htest row state hready
    rw [scanRows]
    rcases hrun : test row state with ⟨b, next⟩
    rw [hrun] at hnext
    cases b with
    | false => exact ih s hnext
    | true =>
      dsimp only
      split
      · exact hnext
      · exact ih _ hnext

/-! ## Questions -/

namespace Question

variable (q : Question) (program : Program) {scope : Scope} {state : EvalState}

theorem matchesRow_eq (h : state.programs.FromScratch scope) (row : Row) :
    (q.matchesRow program scope row state).1 = program.holds scope (q.bindings row) ∧
      (q.matchesRow program scope row state).2.programs.FromScratch scope := by
  have hsettled : EvalM.Settled scope (program.evaluate scope (q.bindings row)) :=
    program.settled_evaluate (q.bindings row)
  have hresult := hsettled.run_eq h
  obtain ⟨r, hr⟩ := hsettled
  have hright := (hr state h).2
  unfold matchesRow Program.holds
  rw [← hresult]
  rcases hrun : (program.evaluate scope (q.bindings row)).run state with ⟨_ | b, next⟩ <;>
    rw [hrun] at hright <;> exact ⟨rfl, hright⟩

theorem fromScratch_decide (h : state.programs.FromScratch scope) (effector : Effector) :
    (q.decide program scope effector state).2.programs.FromScratch scope := by
  unfold decide
  dsimp only
  split
  · have hright := (matchesRow_eq q program h []).2
    split <;> next heq => rwa [heq] at hright
  · exact ready_scanRows (fun state => state.programs.FromScratch scope)
      (fun row _ hstate => (matchesRow_eq q program hstate row).2) q.effectOf _ h q.policy.rows

/-- With right programs and the rule of the effect kind, a decision over rows is the full scan. -/
theorem decide_eq_fullScan (h : state.programs.FromScratch scope) (hrows : q.policy.rows ≠ []) :
    (q.decide program scope .standard state).1 = fullScan q.kind q.effectOf
      (q.policy.rows.filter fun row => program.holds scope (q.bindings row)) := by
  unfold decide
  rw [if_neg (by rwa [List.isEmpty_iff])]
  exact scanRows_decision (fun state => state.programs.FromScratch scope)
    (fun row _ hstate => matchesRow_eq q program hstate row) q.kind q.effectOf [] q.policy.rows h
    (by simp)

/-- Without rows, and where the matcher does not hold of empty fields, the default decides. -/
theorem decide_eq_default (h : state.programs.FromScratch scope) (hrows : q.policy.rows = [])
    (hfails : program.holds scope (q.bindings []) = false) :
    (q.decide program scope .standard state).1 = ⟨q.kind.default, []⟩ := by
  have htest := (matchesRow_eq q program h []).1
  rw [hfails] at htest
  unfold decide
  rw [hrows, if_pos (by simp)]
  rcases hrun : q.matchesRow program scope [] state with ⟨b, next⟩
  rw [hrun] at htest
  obtain rfl : b = false := htest
  rfl

/-- A row with a value for every field contributes the effect it states. -/
theorem effectOf_eq (row : Row) (hrow : row.length = q.policy.fields.length) :
    q.effectOf row = q.policy.statedEffect row := by
  unfold effectOf Definition.statedEffect
  cases hi : q.policy.fieldIndex (q.policy.key ++ "_eft") with
  | none => rfl
  | some i =>
    have hlt : i < row.length := by
      rw [hrow]
      exact (List.idxOf?_eq_some_iff.1 hi).1
    simp [Effect.ofField, List.getElem?_eq_getElem hlt]

end Question

end AccessControl
